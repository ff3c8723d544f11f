import Tint.Transition
import Tint.ListEdit
import Tint.TableMac
import Tint.TableWin
import Tint.LazyEvents
import Tint.SplitWin
import Tint.EventLoop
import Tint.CallbackQueue
import Tint.CallbackQueueProtocol
import Tint.EventHandler
import Tint.Binary64
import Tint.Utf
import Tint.Marshal
import Tint.TypeEncoding
import Tint.UniqueReading
import Tint.MethodCache
import Tint.MessageCache
import Tint.ContainerTree
import Tint.Layout
import Tint.Alignment
import Tint.StructLayout
import Tint.StructTypes
import Tint.StructElements
import Tint.StructEncoding
import Tint.StructParse
import Tint.MapChain
import Tint.StructReading
import Tint.StructSize
import Tint.MessageSend
import Tint.StructCache
import Tint.EncodingMap
import Tint.BridgeImport
import Tint.BridgeCalls
import Tint.Program
import Tint.Exe.VersionInfo
import Tint.Exe.VersionResource
import Tint.FileReader
import Tint.Exe.File
import Tint.Exe.Format
import Tint.Exe.Version
import Tint.Exe.Inside
import Tint.Exe.Refines
import Tint.Exe.Fields
import Tint.FilePatch
import Tint.Exe.Stamping
import Tint.Exe.StampingFrame
import Tint.Exe.StampedBytes
import Tint.NamespaceImport
import Tint.EnumIdentity
import Tint.Threads
import Tint.ScriptInterface
import Tint.EmbedLoop
import Tint.OpenEvents
import Tint.HotKeys
import Tint.Paths
import Tint.AppSchema
import Tint.MenuMirror
import Tint.Fullscreen
import Tint.Toolbar
import Tint.Visit
import Tint.ItemWalk
import Tint.Dispatch
import Tint.LayoutProperty
import Tint.ConstraintList
import Tint.MouseTracking
import Tint.Isolation
import Tint.ByteMemory
import Tint.UntilZeros
import Tint.StructAccess
import Tint.PointerTypes
import Tint.Int64Codec
import Tint.VariadicFunction
import Tint.DateMarshal
import Tint.Portion
import Tint.SplitPosition
import Tint.TableColumns
import Tint.WindowDock
import Tint.ButtonGroupWin
import Tint.ButtonGroupMac
import Tint.NotificationWin
import Tint.ScriptCallbacks
import Tint.ScriptSyntax
import Tint.PostMessage
import Tint.FileFilter
import Tint.FileInput
import Tint.JsonText
import Tint.MainScan
import Tint.NodePath
import Tint.FileMapping
import Tint.Instances.FileDialog
import Tint.Instances.DropDown
import Tint.Instances.BorderRadius
import Tint.Instances.Notification
import Tint.Instances
import Tint.Crc
import Tint.ChunkedReader
import Tint.Png.ChunkStream
import Tint.FillLoop
import Tint.Png.Checksum
import Tint.Png.Filter
import Tint.Png.Filtering
import Tint.Png.Parser
import Tint.Png.Format
import Tint.Png.Decoder
import Tint.Png.Pack
import Tint.Tracing
import Tint.BufferRefs
import Tint.BudgetSearch
import Tint.FrameworkImport
import Tint.ForeignCall
import Tint.BuildQueue
