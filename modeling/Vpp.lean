import Vpp.Acl.FillTuple
import Vpp.Acl.Match
import Vpp.Acl.SessionRun
import Vpp.Acl.Sessions
import Vpp.Bfd.AuthKeys
import Vpp.Bfd.Handshake
import Vpp.Bfd.KeyRun
import Vpp.Bfd.Protocol
import Vpp.Bfd.SeqWindow
import Vpp.Bfd.Session
import Vpp.Bfd.StateChange
import Vpp.Bfd.TxInterval
import Vpp.Bihash.AddDel
import Vpp.Bihash.Map
import Vpp.Bihash.Split
import Vpp.Bihash.Template
import Vpp.Classify.AddDel
import Vpp.Dpo.InFlight
import Vpp.Dpo.LoadBalance
import Vpp.Dpo.LoadBalanceMap
import Vpp.Dpo.Normalize
import Vpp.Dpo.Update
import Vpp.Feature.ArcOrder
import Vpp.Feature.Config
import Vpp.Feature.ConfigStrings
import Vpp.Feature.Count
import Vpp.Fib.EntrySrc
import Vpp.Fib.EntrySrcRun
import Vpp.Fib.EntrySrcSteps
import Vpp.Fib.Ip6Lookup
import Vpp.Fib.Ip6Run
import Vpp.Fib.LoopDetect
import Vpp.Fib.PathList
import Vpp.Fib.PathListCopy
import Vpp.Fib.PathListRun
import Vpp.Fib.Table
import Vpp.Fib.TableCount
import Vpp.Fib.UrpfBake
import Vpp.Fib.UrpfList
import Vpp.Infra.Bitmap
import Vpp.Infra.BitmapAlu
import Vpp.Infra.BitmapRange
import Vpp.Infra.Bitops
import Vpp.Infra.ClibFifo
import Vpp.Infra.DlistRun
import Vpp.Infra.Fheap
import Vpp.Infra.FheapCut
import Vpp.Infra.FheapDelMin
import Vpp.Infra.FheapForest
import Vpp.Infra.FheapRun
import Vpp.Infra.FheapShape
import Vpp.Infra.Format
import Vpp.Infra.HashResize
import Vpp.Infra.HashRun
import Vpp.Infra.HashTable
import Vpp.Infra.Heap
import Vpp.Infra.HeapAlloc
import Vpp.Infra.HeapCells
import Vpp.Infra.HeapCombine
import Vpp.Infra.HeapFree
import Vpp.Infra.HeapRun
import Vpp.Infra.HeapSearch
import Vpp.Infra.Pool
import Vpp.Infra.SparseVec
import Vpp.Infra.Zvec
import Vpp.Ip.ChainChecksum
import Vpp.Ip.Checksum
import Vpp.Ip.Frag
import Vpp.Ip.Frag4
import Vpp.Ip.Frag6
import Vpp.Ip.FragAgree
import Vpp.Ip.FragMtu
import Vpp.Ip.FragRun
import Vpp.Ip.Ip6Format
import Vpp.Ip.Ip6RoundTrip
import Vpp.Ip.Ip6ZeroRuns
import Vpp.Ip.PortRange
import Vpp.Ipsec.EspEsn
import Vpp.Ipsec.EspReplay
import Vpp.Ipsec.Ikev2Notify
import Vpp.Ipsec.Ikev2Payload
import Vpp.Ipsec.Ikev2Reads
import Vpp.Ipsec.Ikev2Sa
import Vpp.Ipsec.Spd
import Vpp.Ipsec.SpdRun
import Vpp.L2.Vtr
import Vpp.L2.VtrConfigure
import Vpp.Lb.HashGet
import Vpp.Lb.NewFlowTable
import Vpp.Lb.StickyFlows
import Vpp.Lb.StickyHash
import Vpp.Lb.Vips
import Vpp.Lib.Allocator
import Vpp.Lib.Along
import Vpp.Lib.BitFields
import Vpp.Lib.Blocks
import Vpp.Lib.ByteLanes
import Vpp.Lib.Chain
import Vpp.Lib.Circles
import Vpp.Lib.Closure
import Vpp.Lib.EndedList
import Vpp.Lib.FirstFit
import Vpp.Lib.Mixing
import Vpp.Lib.KeyedList
import Vpp.Lib.LinkedRing
import Vpp.Lib.LongestMatch
import Vpp.Lib.NetBytes
import Vpp.Lib.Numeral
import Vpp.Lib.OnesComplement
import Vpp.Lib.Pieces
import Vpp.Lib.Pool
import Vpp.Lib.Ranked
import Vpp.Lib.Reading
import Vpp.Lib.Ring
import Vpp.Lib.RoundRobin
import Vpp.Lib.SlabHeap
import Vpp.Lib.SlidingWindow
import Vpp.Lib.Slots
import Vpp.Lib.SortedVec
import Vpp.Lib.Splice
import Vpp.Lib.TokenBucket
import Vpp.Lib.Walks
import Vpp.Lib.WheelLevels
import Vpp.Lisp.DictRun
import Vpp.Lisp.DictSources
import Vpp.Lisp.DictTable
import Vpp.Lisp.Dictionary
import Vpp.Lisp.Parse
import Vpp.Lisp.RoundTrip
import Vpp.Lisp.Types
import Vpp.Map.Domain
import Vpp.Map.Reass
import Vpp.Map.ReassConf
import Vpp.Map.ReassFree
import Vpp.Map.ReassRun
import Vpp.Mtrie.Effect
import Vpp.Mtrie.Fib
import Vpp.Mtrie.Mask
import Vpp.Mtrie.Plies
import Vpp.Mtrie.PlyRun
import Vpp.Mtrie.Set
import Vpp.Mtrie.Tree
import Vpp.Mtrie.Unset
import Vpp.Qos.Policer
import Vpp.Qos.PolicerConfig
import Vpp.Serialize.LikelySmall
import Vpp.Serialize.Read
import Vpp.Serialize.Stream
import Vpp.Serialize.Write
import Vpp.Snat.Det
import Vpp.Snat.Nat44
import Vpp.Snat.StaticMapping
import Vpp.Svm.Collect
import Vpp.Svm.Fifo
import Vpp.Svm.FifoRun
import Vpp.Svm.OooAdd
import Vpp.Svm.OooExact
import Vpp.Svm.OooList
import Vpp.Svm.OooSegs
import Vpp.Svm.Peek
import Vpp.Svm.Reached
import Vpp.Tcp.AckTranslate
import Vpp.Tcp.Newreno
import Vpp.Tcp.Options
import Vpp.Tcp.OptionsReads
import Vpp.Tcp.OptionsRoundTrip
import Vpp.Tcp.RcvAck
import Vpp.Tcp.SackList
import Vpp.Tcp.SackRun
import Vpp.Tcp.Scoreboard
import Vpp.Tcp.SendPointers
import Vpp.Tcp.Seq
import Vpp.Tcp.Translate
import Vpp.Tcp.Walk
import Vpp.TimingWheel.Advance
import Vpp.TimingWheel.Delivery
import Vpp.TimingWheel.NextTime
import Vpp.TimingWheel.Place
import Vpp.TimingWheel.Sweep
import Vpp.TimingWheel.Wheel
import Vpp.TwTimer.DueCount
import Vpp.TwTimer.Clock
import Vpp.TwTimer.Expire
import Vpp.TwTimer.Layout
import Vpp.TwTimer.Run
import Vpp.TwTimer.Ticks
import Vpp.TwTimer.Wheel
import Vpp.Vlib.Barrier
import Vpp.Vlib.Buffer
import Vpp.Vlib.BufferAlloc
import Vpp.Vlib.BufferClone
import Vpp.Vlib.BufferInv
import Vpp.Vlib.BufferRun
import Vpp.Vlib.ChainAppend
import Vpp.Vlib.FrameQueue
