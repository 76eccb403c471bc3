import OpenJfx.Collections.PermutationReplay
import OpenJfx.Collections.PermutationMerge
import OpenJfx.Collections.SortedListUnsort
import OpenJfx.Animation.ReverseDirection
import OpenJfx.Animation.PulseSnapshot
import OpenJfx.Geometry.RegionSharing
import OpenJfx.Binding.ValueChain
import OpenJfx.Collections.MapMirror
import OpenJfx.Collections.MapViews
import OpenJfx.Collections.VetoableRemoval
import OpenJfx.Scene.RenderMirror
import OpenJfx.Events.ChainRefinement
import OpenJfx.Css.StyleClassSet
import OpenJfx.Css.BitSetListeners
import OpenJfx.Css.SelectorMatching
import OpenJfx.Css.SelectorIndex
import OpenJfx.Css.Match
import OpenJfx.Css.CascadingStyle
import OpenJfx.Css.ParsedValueContract
import OpenJfx.Collections.ElementObservation
import OpenJfx.Binding.BoundList
import OpenJfx.Controls.TextProperties
import OpenJfx.Controls.SelectedText
import OpenJfx.Controls.ArrayLinkedList
import OpenJfx.Controls.SelectedCellsMap
import OpenJfx.Controls.SelectedIndicesCursorRuns
import OpenJfx.Controls.SelectionChanges
import OpenJfx.Controls.SelectionCoherence
import OpenJfx.Controls.SelectedItems
import OpenJfx.Controls.TreeItemLinks
import OpenJfx.Controls.TreeRows
import OpenJfx.Concurrent.TaskUpdates
import OpenJfx.Concurrent.TaskLifeCycle
import OpenJfx.Glass.InvokeLaterDispatcher
import OpenJfx.Glass.LinuxEventBuffer
import OpenJfx.Media.HLSPlaylist
import OpenJfx.Media.VariantPlaylist
import OpenJfx.Media.PlaylistParser
import OpenJfx.Prism.RectanglePacker
import OpenJfx.Network.CookieOrder
import OpenJfx.Network.CookieReach
import OpenJfx.Iio.ImageConversion
import OpenJfx.Iio.BMPRunLength
import OpenJfx.Iio.PNGScanLines
import OpenJfx.Iio.SmoothMinifier
import OpenJfx.Fxml.Tokenizer
import OpenJfx.Collections.IntegerArrayRefinement
import OpenJfx.Glass.TouchInput
import OpenJfx.Collections.BuilderSafety
import OpenJfx.Collections.FilteredListContent
