import Or1ksim.Rsp.Transparency
import Or1ksim.Rsp.Packet
import Or1ksim.Rsp.Stall
import Or1ksim.Sched.Correct
import Or1ksim.Cache.Transparent
import Or1ksim.Decoder.Correct
import Or1ksim.Insn.Agree
import Or1ksim.Insn.Generate
import Or1ksim.Cpu.Delivery
import Or1ksim.Cpu.Peek
import Or1ksim.Cpu.TickMatch
import Or1ksim.Cpu.Accounting
import Or1ksim.Cpu.Raises
import Or1ksim.Cpu.Resume
import Or1ksim.Cuc.Preserve
import Or1ksim.Cuc.Ssa
import Or1ksim.Memory.BigEndian
import Or1ksim.Memory.Lookup
import Or1ksim.Memory.Register
import Or1ksim.Cache.Fetch
import Or1ksim.Jtag.Transfer
import Or1ksim.Uart.Interrupts
import Or1ksim.Uart.Transmit
import Or1ksim.Eth.Descriptors
import Or1ksim.Dma.Sources
import Or1ksim.Loader.Exact
import Or1ksim.Config.Inert
import Or1ksim.Config.Comments
import Or1ksim.Lib.Overlay
import Or1ksim.Kbd.Stream
import Or1ksim.Cpu.Carry
import Or1ksim.Cpu.Host
import Or1ksim.Cpu.Mac
import Or1ksim.Cpu.Syscall
import Or1ksim.Cpu.Tlb
import Or1ksim.Cpu.Lru
import Or1ksim.Cpu.Translation
import Or1ksim.Cache.Agrees
import Or1ksim.Cpu.Direct
import Or1ksim.Cache.PowerUp
import Or1ksim.Cache.Faults
import Or1ksim.Lib.Select
import Or1ksim.Cache.Victims
import Or1ksim.Sched.Null
import Or1ksim.Cpu.Passes
import Or1ksim.Sched.NextInsn
import Or1ksim.Debug.Watchpoints
import Or1ksim.Rsp.RoundTrip
import Or1ksim.Rsp.Memory
import Or1ksim.Rsp.Bounds
import Or1ksim.Rsp.Digits
import Or1ksim.Jtag.Response
import Or1ksim.Jtag.Answers
import Or1ksim.Jtag.Leaks
import Or1ksim.Jtag.Length
import Or1ksim.Jtag.ResponseCrc
import Or1ksim.Dma.Copy
import Or1ksim.Dma.Sizes
import Or1ksim.Cuc.Edge
import Or1ksim.Lib.Compact
import Or1ksim.Lib.Tiling
import Or1ksim.Cuc.Partition
import Or1ksim.Cuc.FanIn
import Or1ksim.Cuc.Faithful
import Or1ksim.Cuc.Relocate
import Or1ksim.Cuc.RemoveDead
import Or1ksim.Cuc.Cse
import Or1ksim.Cuc.Cmovs
import Or1ksim.Cuc.CmovMore
import Or1ksim.Cuc.CmovValues
import Or1ksim.Cuc.CmovJoin
import Or1ksim.Cuc.CmovPush
import Or1ksim.Cuc.CmovExact
import Or1ksim.Gpio.Clock
import Or1ksim.Profiler.Time
import Or1ksim.Profiler.Report
import Or1ksim.Baton.Receive
import Or1ksim.Baton.Hex
import Or1ksim.Cpu.Sbuf
import Or1ksim.Generic.Upcall
import Or1ksim.Mc.Handover
import Or1ksim.Ata.Address
import Or1ksim.Ata.Buffer
import Or1ksim.Ata.Bounds
import Or1ksim.Eth.Receive
import Or1ksim.Cuc.Schedule
import Or1ksim.Cuc.StackFrame
import Or1ksim.Cuc.Facts
import Or1ksim.Cuc.Joins
import Or1ksim.Decoder.Linked
import Or1ksim.Jtag.Utility
import Or1ksim.Cuc.LoadRuns
import Or1ksim.Cpu.Stats
import Or1ksim.Cpu.Branches
import Or1ksim.Profiler.Mprofiler
import Or1ksim.Cpu.Labels
import Or1ksim.Eth.Stream
import Or1ksim.Cuc.RemoveDeadBb
