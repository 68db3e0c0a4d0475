import Vock.Laws.Pt.Sync
import Vock.Laws.Pt.Outcomes
import Vock.Laws.Fuzz.Accepts
import Vock.Laws.Fuzz.ProgMutate
import Vock.Laws.Fuzz.Overlap
import Vock.Laws.Fuzz.Watchdog
import Vock.Laws.Fuzz.ProgText
import Vock.Laws.Mode.SampleRing
import Vock.Laws.Syscall.Decode
import Vock.Laws.Fuzz.Btf
import Vock.Laws.Fuzz.SignalEdge
import Vock.Laws.Preload.Threads
import Vock.Laws.Fuzz.Endpoints
import Vock.Laws.Fuzz.UsbPass
import Vock.Laws.Syscall.Ptrace
import Vock.Laws.Report.Kaslr
import Vock.Laws.Report.Paths
import Vock.Laws.Report.External
import Vock.Laws.Report.Streaming
import Vock.Laws.Dwarf.Lookup
import Vock.Laws.Dwarf.Replaced
import Vock.Laws.Fuzz.Checksum
import Vock.Laws.Ebpf.Ring
import Vock.Laws.Pt.Safe
import Vock.Laws.Fuzz.Total
import Vock.Laws.Ebpf.Programs
import Vock.Laws.Fuzz.PseudoExt
import Vock.Laws.Fuzz.UsbDescriptor
import Vock.Laws.Report.Merge
import Vock.Laws.Dwarf.Symbols
import Vock.Laws.Report.Btf
import Vock.Laws.Mode.Vmlinux
import Vock.Laws.Fuzz.Covset
import Vock.Laws.Fuzz.Mutate
