import Libjeffpc.Lib.Comp
import Libjeffpc.Lib.BinTree
import Libjeffpc.Lib.RedBlack
import Libjeffpc.Lib.Order
import Libjeffpc.Tree.Repr
import Libjeffpc.Tree.Proofs.RotateProofs
import Libjeffpc.Tree.Proofs.RemoveProofs
import Libjeffpc.Tree.Proofs.InsertProofs
import Libjeffpc.Tree.Proofs.FixupProofs
import Libjeffpc.Tree.Proofs.FindProofs
import Libjeffpc.Tree.Proofs.FlavourProofs
import Libjeffpc.Tree.Proofs.InvariantProofs
import Libjeffpc.Tree.OrderedSet
import Libjeffpc.Tree.Proofs.OrderedSetProofs
import Libjeffpc.Lib.Threads
import Libjeffpc.Taskq.Taskq
import Libjeffpc.Taskq.Proofs.TaskqProofs
import Libjeffpc.Lib.Digraph
import Libjeffpc.Synch.Lockdep
import Libjeffpc.Synch.Proofs.LockdepProofs
import Libjeffpc.Errno
import Libjeffpc.Lib.CString
import Libjeffpc.Nvl.Nvl
import Libjeffpc.Nvl.NvMap
import Libjeffpc.Nvl.Proofs.NvlProofs
import Libjeffpc.Nvl.Proofs.NvMapProofs
import Libjeffpc.Int.ByteOrder
import Libjeffpc.Lib.Hoare
import Libjeffpc.Int.Proofs.ByteOrderProofs
import Libjeffpc.Buffer.Buffer
import Libjeffpc.Buffer.Proofs.BufferProofs
import Libjeffpc.Cbor.Pack
import Libjeffpc.Cbor.Unpack
import Libjeffpc.Buffer.Reader
import Libjeffpc.Cbor.Grammar
import Libjeffpc.Cbor.Proofs.HeadProofs
import Libjeffpc.Cbor.Proofs.UnpackProofs
import Libjeffpc.Cbor.Proofs.SoundProofs
import Libjeffpc.Cbor.Proofs.CompleteProofs
import Libjeffpc.Cbor.Proofs.PackProofs
import Libjeffpc.Cbor.Entry
import Libjeffpc.Cbor.Proofs.CborProofs
import Libjeffpc.Scgi.Scgisvc
import Libjeffpc.Scgi.Proofs.ScgisvcProofs
import Libjeffpc.Taskq.Wakeup
import Libjeffpc.Taskq.Proofs.WakeupProofs
import Libjeffpc.Lib.Relational
import Libjeffpc.Tree.Compact
import Libjeffpc.Tree.Forest
import Libjeffpc.Tree.Proofs.SimProofs
import Libjeffpc.Tree.Proofs.LayoutProofs
import Libjeffpc.Buffer.ByteList
import Libjeffpc.Buffer.Proofs.ByteListProofs
import Libjeffpc.Json.Pack
import Libjeffpc.Buffer.Output
import Libjeffpc.Json.Text
import Libjeffpc.Json.Proofs.TextProofs
import Libjeffpc.Buffer.Proofs.OutputProofs
import Libjeffpc.Json.Proofs.ReadProofs
import Libjeffpc.Json.Proofs.JsonProofs
import Libjeffpc.Val.Pack
import Libjeffpc.Cbor.Output
import Libjeffpc.Cbor.Proofs.OutputProofs
import Libjeffpc.Val.Proofs.PackProofs
import Libjeffpc.Nvl.Pack
import Libjeffpc.Nvl.Proofs.PackProofs
import Libjeffpc.Sexpr.Sexpr
import Libjeffpc.Sexpr.Proofs.EqualProofs
import Libjeffpc.Sexpr.Proofs.StructureProofs
import Libjeffpc.Sexpr.Eval
import Libjeffpc.Sexpr.Expr
import Libjeffpc.Sexpr.Proofs.EvalProofs
import Libjeffpc.Sexpr.Proofs.TerminatorProofs
import Libjeffpc.Sexpr.Proofs.BuildProofs
import Libjeffpc.Tree.Iterate
import Libjeffpc.Tree.Proofs.IterateProofs
import Libjeffpc.Tree.Destroy
import Libjeffpc.Tree.Proofs.DestroyProofs
import Libjeffpc.Sexpr.Compact
import Libjeffpc.Sexpr.Shape
import Libjeffpc.Sexpr.Proofs.ListProofs
import Libjeffpc.Sexpr.Proofs.CompactProofs
import Libjeffpc.Sexpr.Proofs.ShapeProofs
import Libjeffpc.Sexpr.Proofs.LookupProofs
import Libjeffpc.Scgi.Proofs.NetstringProofs
import Libjeffpc.Lib.RefCount
import Libjeffpc.Val.Heap
import Libjeffpc.Sexpr.CompactHeap
import Libjeffpc.Val.Proofs.HeapProofs
import Libjeffpc.Sexpr.Ownership
import Libjeffpc.Sexpr.Proofs.OwnershipProofs
import Libjeffpc.Sexpr.Proofs.CompactHeapProofs
import Libjeffpc.Sexpr.Proofs.BalanceProofs
import Libjeffpc.Lib.Buf
import Libjeffpc.Url.Urldecode
import Libjeffpc.Url.Proofs.UrldecodeProofs
import Libjeffpc.Base64.Base64
import Libjeffpc.Base64.Proofs.Base64Proofs
import Libjeffpc.Unicode.Unicode
import Libjeffpc.Unicode.Proofs.UnicodeProofs
import Libjeffpc.Int.Str2uint
import Libjeffpc.Int.Proofs.Str2uintProofs
import Libjeffpc.Url.Qstring
import Libjeffpc.Url.Proofs.QstringProofs
import Libjeffpc.Scgi.Response
import Libjeffpc.Nvl.Convert
import Libjeffpc.Scgi.Proofs.ResponseProofs
import Libjeffpc.Nvl.Proofs.ConvertProofs
import Libjeffpc.Scgi.Content
import Libjeffpc.Scgi.Proofs.ContentProofs
import Libjeffpc.Buffer.Bounds
import Libjeffpc.Buffer.Proofs.BoundsProofs
import Libjeffpc.Cbor.Proofs.IntProofs
import Libjeffpc.Cbor.Proofs.TextProofs
import Libjeffpc.Sexpr.ListHeap
import Libjeffpc.Sexpr.Proofs.ListHeapProofs
import Libjeffpc.Val.Str
import Libjeffpc.Val.Proofs.StrProofs
import Libjeffpc.Val.StrCat
import Libjeffpc.Val.Proofs.StrCatProofs
import Libjeffpc.Val.NvlSet
import Libjeffpc.Val.Proofs.NvlSetProofs
import Libjeffpc.Nvl.Proofs.AgreeProofs
import Libjeffpc.Lib.Scanner
import Libjeffpc.Sexpr.Reader
import Libjeffpc.Sexpr.Proofs.ParserProofs
import Libjeffpc.Sexpr.Proofs.ReaderProofs
import Libjeffpc.Sexpr.Input
import Libjeffpc.Sexpr.Proofs.InputProofs
import Libjeffpc.Uuid.Proofs.UuidProofs
import Libjeffpc.Cbor.Proofs.MinimalProofs
import Libjeffpc.Synch.Proofs.SearchProofs
import Libjeffpc.Array.Array
import Libjeffpc.Array.Proofs.ArrayProofs
import Libjeffpc.Lib.Ring
import Libjeffpc.Lists.Lists
import Libjeffpc.Lists.Proofs.ListsProofs
import Libjeffpc.Lists.Proofs.RunProofs
import Libjeffpc.FileCache.EventPort
import Libjeffpc.FileCache.Proofs.EventPortProofs
import Libjeffpc.FileCache.Proofs.FileCacheProofs
import Libjeffpc.Array.MemArray
import Libjeffpc.Cbor.Work
import Libjeffpc.Cbor.Proofs.WorkProofs
import Libjeffpc.Cbor.Proofs.OverrunProofs
import Libjeffpc.Sexpr.Dump
import Libjeffpc.Sexpr.Proofs.LexemeProofs
import Libjeffpc.Sexpr.Proofs.CutProofs
import Libjeffpc.Sexpr.Proofs.DumpProofs
