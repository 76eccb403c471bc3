import Mathlib.Data.List.Basic
import Mathlib.Data.List.Nodup
import Mathlib.Data.List.Perm.Basic

/-! # Lists of entries that carry their key

`update` changes the entry of a key, which is created when there is none.  The
lemmas say what an update adds to a list of results that is collected from all
entries, or from the entry of one key. -/
set_option autoImplicit false
namespace OpenJfx.Lib.KeyedList

section Update
variable {K V A : Type} [BEq K] (keyOf : V → K)

def get (k : K) (entries : List V) : Option V := entries.find? (fun v => keyOf v == k)

def update (k : K) (new : V) (f : V → V) : List V → List V
  | [] => [f new]
  | v :: rest => if keyOf v == k then f v :: rest else v :: update k new f rest

def collect (h : V → List A) (k : K) (entries : List V) : List A :=
  match get keyOf k entries with
  | none => []
  | some v => h v

variable {keyOf}

theorem flatMap_update_perm {h : V → List A} {k : K} {new : V} {f : V → V} {delta : List A}
    (hnew : (h (f new)).Perm delta) (hold : ∀ v, (keyOf v == k) = true → (h (f v)).Perm (h v ++ delta))
    (entries : List V) : ((update keyOf k new f entries).flatMap h).Perm (entries.flatMap h ++ delta) := by
  induction entries with
  | nil =>
    rw [update, List.flatMap_cons, List.flatMap_nil, List.append_nil, List.nil_append]
    exact hnew
  | cons v rest ih =>
    rw [update]
    split
    · rename_i hv
      rw [List.flatMap_cons, List.flatMap_cons]
      have hcomm : (h v ++ rest.flatMap h ++ delta).Perm (h v ++ delta ++ rest.flatMap h) := by
        rw [List.append_assoc, List.append_assoc]
        exact (List.perm_append_comm).append_left (h v)
      exact ((hold v hv).append_right _).trans hcomm.symm
    · rw [List.flatMap_cons, List.flatMap_cons, List.append_assoc]
      exact ih.append_left (h v)

theorem get_cons_of_eq {v : V} {k : K} (h : (keyOf v == k) = true) (rest : List V) :
    get keyOf k (v :: rest) = some v := by
  simp [get, h]

theorem get_cons_of_ne {v : V} {k : K} (h : ¬(keyOf v == k) = true) (rest : List V) :
    get keyOf k (v :: rest) = get keyOf k rest := by
  simp [get, h]

variable [LawfulBEq K]

theorem get_update_self {k : K} {new : V} {f : V → V} (hkey : ∀ v, keyOf (f v) = keyOf v) (hnew : keyOf new = k)
    (entries : List V) :
    get keyOf k (update keyOf k new f entries) = some (f ((get keyOf k entries).getD new)) := by
  induction entries with
  | nil =>
    have hself : (keyOf (f new) == k) = true := by rw [hkey, hnew, beq_self_eq_true]
    simp [update, get, hself]
  | cons v rest ih =>
    rw [update]
    split
    · rename_i hv
      rw [get_cons_of_eq (by rw [hkey]; exact hv), get_cons_of_eq hv]
      rfl
    · rename_i hv
      rw [get_cons_of_ne hv, get_cons_of_ne hv]
      exact ih

theorem get_update_other {k k' : K} {new : V} {f : V → V} (hkey : ∀ v, keyOf (f v) = keyOf v)
    (hnew : keyOf new = k) (hne : k ≠ k') (entries : List V) :
    get keyOf k' (update keyOf k new f entries) = get keyOf k' entries := by
  induction entries with
  | nil =>
    have hother : (keyOf (f new) == k') = false := by
      rw [hkey, hnew]
      exact beq_false_of_ne hne
    simp [update, get, hother]
  | cons v rest ih =>
    rw [update]
    split
    · rename_i hv
      have hvk : keyOf v = k := eq_of_beq hv
      have hother : ¬(keyOf v == k') = true := by
        rw [hvk, beq_iff_eq]
        exact hne
      rw [get_cons_of_ne (by rw [hkey]; exact hother), get_cons_of_ne hother]
    · by_cases hv' : (keyOf v == k') = true
      · rw [get_cons_of_eq hv', get_cons_of_eq hv']
      · rw [get_cons_of_ne hv', get_cons_of_ne hv']
        exact ih

theorem collect_update_perm {h : V → List A} {k : K} {new : V} {f : V → V} {delta : List A}
    (hkey : ∀ v, keyOf (f v) = keyOf v) (hnewKey : keyOf new = k) (hnew : h new = [])
    (hold : ∀ v, (h (f v)).Perm (h v ++ delta)) (k' : K) (entries : List V) :
    (collect keyOf h k' (update keyOf k new f entries)).Perm
      (collect keyOf h k' entries ++ if k == k' then delta else []) := by
  by_cases heq : k = k'
  · subst heq
    rw [collect, get_update_self hkey hnewKey, collect, if_pos (beq_self_eq_true k)]
    cases get keyOf k entries with
    | none =>
      have hdelta := hold new
      rw [hnew] at hdelta
      exact hdelta
    | some v => exact hold v
  · rw [collect, get_update_other hkey hnewKey heq, collect, if_neg (by rw [beq_iff_eq]; exact heq),
      List.append_nil]

theorem flatMap_collect_update_perm {h : V → List A} {k : K} {new : V} {f : V → V} {delta : List A}
    (hkey : ∀ v, keyOf (f v) = keyOf v) (hnewKey : keyOf new = k) (hnew : h new = [])
    (hold : ∀ v, (h (f v)).Perm (h v ++ delta)) {keys : List K} (hnodup : keys.Nodup) (entries : List V) :
    (keys.flatMap (fun k' => collect keyOf h k' (update keyOf k new f entries))).Perm
      (keys.flatMap (fun k' => collect keyOf h k' entries) ++ if keys.contains k then delta else []) := by
  induction keys with
  | nil => simp
  | cons k' rest ih =>
    obtain ⟨hnotin, hrest⟩ := List.nodup_cons.mp hnodup
    have hhead := collect_update_perm hkey hnewKey hnew hold k' entries
    rw [List.flatMap_cons, List.flatMap_cons, List.contains_cons]
    by_cases heq : k = k'
    · subst heq
      have hno : rest.contains k = false := by
        rw [List.contains_eq_mem]
        exact decide_eq_false hnotin
      have htail := ih hrest
      rw [hno, if_neg (fun h => nomatch h), List.append_nil] at htail
      rw [beq_self_eq_true, if_pos rfl] at hhead
      rw [beq_self_eq_true, Bool.true_or, if_pos rfl]
      refine (hhead.append htail).trans ?_
      rw [List.append_assoc, List.append_assoc]
      exact (List.perm_append_comm).append_left _
    · have hbeq : (k == k') = false := beq_false_of_ne heq
      rw [hbeq, if_neg (fun h => nomatch h), List.append_nil] at hhead
      rw [hbeq, Bool.false_or, List.append_assoc]
      exact hhead.append (ih hrest)

end Update

/-! ## Distinct keys

The entries of a map, one for each key. -/

section Distinct
variable {K V A : Type} [BEq K] [LawfulBEq K] {keyOf : V → K}

def remove (keyOf : V → K) (k : K) (entries : List V) : List V := entries.filter fun v => !(keyOf v == k)

def Distinct (keyOf : V → K) (entries : List V) : Prop := (entries.map keyOf).Nodup

variable {k : K} {v new : V} {f : V → V} {entries : List V}

theorem get_eq_none : get keyOf k entries = none ↔ ∀ w ∈ entries, keyOf w ≠ k := by
  rw [get, List.find?_eq_none]
  constructor
  · intro h w hw heq
    exact h w hw (beq_iff_eq.mpr heq)
  · intro h w hw heq
    exact h w hw (beq_iff_eq.mp heq)

theorem get_mem (h : get keyOf k entries = some v) : v ∈ entries ∧ keyOf v = k :=
  ⟨List.mem_of_find?_eq_some h, beq_iff_eq.mp (List.find?_some (p := fun w => keyOf w == k) h)⟩

theorem get_split (hdistinct : Distinct keyOf entries) (h : get keyOf k entries = some v) :
    ∃ before behind, entries = before ++ v :: behind ∧ keyOf v = k ∧ ∀ w ∈ before ++ behind, keyOf w ≠ k := by
  obtain ⟨hmem, hkey⟩ := get_mem h
  obtain ⟨before, behind, rfl⟩ := List.append_of_mem hmem
  refine ⟨before, behind, rfl, hkey, ?_⟩
  have hperm : ((before ++ v :: behind).map keyOf).Perm ((v :: (before ++ behind)).map keyOf) :=
    List.perm_middle.map keyOf
  have hnodup := hperm.nodup_iff.mp hdistinct
  rw [List.map_cons, List.nodup_cons, hkey] at hnodup
  intro w hw heq
  exact hnodup.1 (List.mem_map.mpr ⟨w, hw, heq⟩)

theorem get_of_mem (hdistinct : Distinct keyOf entries) (hv : v ∈ entries) : get keyOf (keyOf v) entries = some v := by
  cases hget : get keyOf (keyOf v) entries with
  | none => exact absurd rfl (get_eq_none.mp hget v hv)
  | some w =>
    obtain ⟨hmem, hkey⟩ := get_mem hget
    exact congrArg some (List.inj_on_of_nodup_map hdistinct hmem hv hkey)

theorem update_of_none (h : get keyOf k entries = none) : update keyOf k new f entries = entries ++ [f new] := by
  have hkeys := get_eq_none.mp h
  clear h
  induction entries with
  | nil => rfl
  | cons w rest ih =>
    rw [update, if_neg (fun heq => hkeys w (List.mem_cons_self ..) (beq_iff_eq.mp heq)),
      ih fun u hu => hkeys u (List.mem_cons_of_mem _ hu)]
    rfl

theorem update_of_split {before behind : List V} (hv : keyOf v = k) (hothers : ∀ w ∈ before, keyOf w ≠ k) :
    update keyOf k new f (before ++ v :: behind) = before ++ f v :: behind := by
  induction before with
  | nil => rw [List.nil_append, update, if_pos (beq_iff_eq.mpr hv), List.nil_append]
  | cons w rest ih =>
    rw [List.cons_append, update, if_neg (fun heq => hothers w (List.mem_cons_self ..) (beq_iff_eq.mp heq)),
      ih fun u hu => hothers u (List.mem_cons_of_mem _ hu)]
    rfl

theorem remove_of_split {before behind : List V} (hv : keyOf v = k) (hothers : ∀ w ∈ before ++ behind, keyOf w ≠ k) :
    remove keyOf k (before ++ v :: behind) = before ++ behind := by
  rw [remove, List.filter_append, List.filter_cons, if_neg (by rw [hv, beq_self_eq_true]; decide), ← List.filter_append]
  refine List.filter_eq_self.mpr fun w hw => ?_
  rw [beq_false_of_ne (hothers w hw)]
  rfl

theorem mem_remove {w : V} (hw : w ∈ entries) (hne : keyOf w ≠ k) : w ∈ remove keyOf k entries := by
  refine List.mem_filter.mpr ⟨hw, ?_⟩
  rw [beq_false_of_ne hne]
  rfl

/-- An update leaves the entries with other keys. -/
theorem mem_update {w : V} (hw : w ∈ entries) (hne : keyOf w ≠ k) : w ∈ update keyOf k new f entries := by
  induction entries with
  | nil => cases hw
  | cons u rest ih =>
    rw [update]
    split
    · rename_i hu
      rcases List.mem_cons.mp hw with rfl | hrest
      · exact absurd (beq_iff_eq.mp hu) hne
      · exact List.mem_cons_of_mem _ hrest
    · rcases List.mem_cons.mp hw with rfl | hrest
      · exact List.mem_cons_self ..
      · exact List.mem_cons_of_mem _ (ih hrest)

omit [BEq K] [LawfulBEq K] in
theorem Distinct.sublist {entries' : List V} (h : Distinct keyOf entries) (hsub : entries'.Sublist entries) :
    Distinct keyOf entries' := List.Nodup.sublist (hsub.map keyOf) h

theorem Distinct.update (h : Distinct keyOf entries) (hnew : keyOf (f new) = k) (hkey : ∀ v, keyOf v = k → keyOf (f v) = k) :
    Distinct keyOf (update keyOf k new f entries) := by
  cases hget : get keyOf k entries with
  | none =>
    rw [update_of_none hget, Distinct, List.map_append, List.map_singleton]
    refine List.nodup_append.mpr ⟨h, List.nodup_singleton _, ?_⟩
    intro x hx y hy heq
    obtain ⟨w, hw, rfl⟩ := List.mem_map.mp hx
    rw [List.mem_singleton.mp hy, hnew] at heq
    exact get_eq_none.mp hget w hw heq
  | some v =>
    obtain ⟨before, behind, rfl, hv, hothers⟩ := get_split h hget
    rw [update_of_split hv fun w hw => hothers w (List.mem_append_left _ hw), Distinct, List.map_append, List.map_cons,
      hkey v hv, ← hv, ← List.map_cons, ← List.map_append]
    exact h

theorem flatMap_collect_perm {h : V → List A} {keys : List K} (hkeys : keys.Nodup) (hdistinct : Distinct keyOf entries)
    (hyields : ∀ v ∈ entries, h v ≠ [] → keyOf v ∈ keys) :
    (keys.flatMap fun k => collect keyOf h k entries).Perm (entries.flatMap h) := by
  induction entries with
  | nil =>
    have hempty : (keys.flatMap fun k => collect keyOf h k []) = [] :=
      List.flatMap_eq_nil_iff.mpr fun _ _ => rfl
    rw [hempty]
    exact List.Perm.refl _
  | cons v rest ih =>
    obtain ⟨hfresh, hrest⟩ := List.nodup_cons.mp hdistinct
    have hrestPerm := ih hrest fun w hw => hyields w (List.mem_cons_of_mem _ hw)
    rw [List.flatMap_cons]
    have hmissing : ∀ k' : K, keyOf v ≠ k' → collect keyOf h k' (v :: rest) = collect keyOf h k' rest := by
      intro k' hne
      rw [collect, collect, get_cons_of_ne (by rw [beq_iff_eq]; exact hne)]
    have hown : collect keyOf h (keyOf v) rest = [] := by
      rw [collect, get_eq_none.mpr]
      intro w hw heq
      exact hfresh (List.mem_map.mpr ⟨w, hw, heq⟩)
    by_cases hin : keyOf v ∈ keys
    · obtain ⟨before, behind, rfl⟩ := List.append_of_mem hin
      have hnodup := List.perm_middle.nodup_iff.mp hkeys
      rw [List.nodup_cons] at hnodup
      have hsame : ∀ ks : List K, (∀ k' ∈ ks, k' ∈ before ++ behind) →
          (ks.flatMap fun k' => collect keyOf h k' (v :: rest)) = ks.flatMap fun k' => collect keyOf h k' rest := by
        intro ks hks
        refine List.flatMap_congr fun k' hk' => hmissing k' ?_
        intro heq
        rw [heq] at hnodup
        exact hnodup.1 (hks k' hk')
      rw [List.flatMap_append, List.flatMap_cons, hown, List.nil_append, ← List.flatMap_append] at hrestPerm
      rw [List.flatMap_append, List.flatMap_cons, hsame before fun k' hk' => List.mem_append_left _ hk',
        hsame behind fun k' hk' => List.mem_append_right _ hk',
        show collect keyOf h (keyOf v) (v :: rest) = h v by rw [collect, get_cons_of_eq (beq_self_eq_true _)]]
      rw [List.flatMap_append] at hrestPerm
      refine List.Perm.trans ?_ (hrestPerm.append_left (h v))
      rw [← List.append_assoc, ← List.append_assoc]
      exact List.perm_append_comm.append_right _
    · have hnil : h v = [] := by
        by_contra hne
        exact hin (hyields v (List.mem_cons_self ..) hne)
      have hsame : (keys.flatMap fun k' => collect keyOf h k' (v :: rest)) = keys.flatMap fun k' => collect keyOf h k' rest := by
        refine List.flatMap_congr fun k' hk' => hmissing k' ?_
        intro heq
        rw [heq] at hin
        exact hin hk'
      rw [hsame, hnil, List.nil_append]
      exact hrestPerm

end Distinct

end OpenJfx.Lib.KeyedList
