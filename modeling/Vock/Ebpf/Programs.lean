import Vock.Ebpf
import Vock.Library.Bpf

/-!
# The programs of the eBPF tracer

The two BPF programs that `vock/src/ebpf.rs` assembles by hand, for `raw_syscalls:sys_enter` and
`raw_syscalls:sys_exit`, as the words that are handed to the kernel. Descriptors of maps are words of 32 bits.
-/

namespace Vock.Ebpf

/-! ## Encoding -/

/-- `BPF_LD`. -/
def bpfLd : U8 := 0x00#8

/-- `BPF_LDX`. -/
def bpfLdx : U8 := 0x01#8

/-- `BPF_ST`. -/
def bpfSt : U8 := 0x02#8

/-- `BPF_STX`. -/
def bpfStx : U8 := 0x03#8

/-- `BPF_ALU64`. -/
def bpfAlu64 : U8 := 0x07#8

/-- `BPF_JMP`. -/
def bpfJmp : U8 := 0x05#8

/-- `BPF_W`. -/
def bpfW : U8 := 0x00#8

/-- `BPF_DW`. -/
def bpfDw : U8 := 0x18#8

/-- `BPF_IMM`. -/
def bpfImm : U8 := 0x00#8

/-- `BPF_MEM`. -/
def bpfMem : U8 := 0x60#8

/-- `BPF_ADD`. -/
def bpfAdd : U8 := 0x00#8

/-- `BPF_RSH`. -/
def bpfRsh : U8 := 0x70#8

/-- `BPF_MOV`. -/
def bpfMov : U8 := 0xb0#8

/-- `BPF_K`. -/
def bpfK : U8 := 0x00#8

/-- `BPF_X`. -/
def bpfX : U8 := 0x08#8

/-- `BPF_JEQ`. -/
def bpfJeq : U8 := 0x10#8

/-- `BPF_JNE`. -/
def bpfJne : U8 := 0x50#8

/-- `BPF_CALL`. -/
def bpfCall : U8 := 0x80#8

/-- `BPF_EXIT`. -/
def bpfExit : U8 := 0x90#8

/-- `BPF_PSEUDO_MAP_FD`. -/
def bpfPseudoMapFd : U8 := 1#8

/-- `HELPER_MAP_LOOKUP_ELEM`. -/
def helperMapLookupElem : BitVec 32 := 1#32

/-- `HELPER_GET_CURRENT_PID_TGID`. -/
def helperGetCurrentPidTgid : BitVec 32 := 14#32

/-- `HELPER_RINGBUF_OUTPUT`. -/
def helperRingbufOutput : BitVec 32 := 130#32

/-- `R0`. -/
def r0 : U8 := 0#8

/-- `R1`. -/
def r1 : U8 := 1#8

/-- `R2`. -/
def r2 : U8 := 2#8

/-- `R3`. -/
def r3 : U8 := 3#8

/-- `R4`. -/
def r4 : U8 := 4#8

/-- `R6`. -/
def r6 : U8 := 6#8

/-- `R7`. -/
def r7 : U8 := 7#8

/-- `R10`. -/
def r10 : U8 := 10#8

/-- `insn`. -/
def insn (code dst src : U8) (off : BitVec 16) (imm : BitVec 32) : U64 :=
  let regs := (dst &&& 0x0f#8) ||| (src <<< 4)
  code.setWidth 64 ||| (regs.setWidth 64 <<< 8) ||| (off.setWidth 64 <<< 16) ||| (imm.setWidth 64 <<< 32)

/-- `ld_map_fd`: it takes two words. -/
def ldMapFd (dst : U8) (fd : BitVec 32) : List U64 :=
  [insn (bpfLd ||| bpfDw ||| bpfImm) dst bpfPseudoMapFd 0 fd, 0#64]

/-! ## The programs -/

/-- `build_enter`. -/
def buildEnter (pidFd ringFd : BitVec 32) : List U64 :=
  [ -- r6 = ctx
    insn (bpfAlu64 ||| bpfMov ||| bpfX) r6 r1 0 0,
    -- r0 = bpf_get_current_pid_tgid()
    insn (bpfJmp ||| bpfCall) 0 0 0 helperGetCurrentPidTgid,
    -- r0 >>= 32
    insn (bpfAlu64 ||| bpfRsh ||| bpfK) r0 0 0 32,
    -- r7 = pid
    insn (bpfAlu64 ||| bpfMov ||| bpfX) r7 r0 0 0,
    -- key = 0 on the stack; r2 = &key
    insn (bpfSt ||| bpfMem ||| bpfW) r10 0 (-4) 0,
    insn (bpfAlu64 ||| bpfMov ||| bpfX) r2 r10 0 0,
    insn (bpfAlu64 ||| bpfAdd ||| bpfK) r2 0 0 (-4)]
  -- r1 = &target_pid map
  ++ ldMapFd r1 pidFd
  ++ [ -- r0 = bpf_map_lookup_elem(map, &key)
    insn (bpfJmp ||| bpfCall) 0 0 0 helperMapLookupElem,
    -- if (r0 != 0) skip 2; else return 0
    insn (bpfJmp ||| bpfJne ||| bpfK) r0 0 2 0,
    insn (bpfAlu64 ||| bpfMov ||| bpfK) r0 0 0 0,
    insn (bpfJmp ||| bpfExit) 0 0 0 0,
    -- r1 = *r0; if (r1 == pid) skip 2; else return 0
    insn (bpfLdx ||| bpfMem ||| bpfW) r1 r0 0 0,
    insn (bpfJmp ||| bpfJeq ||| bpfX) r1 r7 2 0,
    insn (bpfAlu64 ||| bpfMov ||| bpfK) r0 0 0 0,
    insn (bpfJmp ||| bpfExit) 0 0 0 0,
    -- event.nr = ctx->id; event.is_exit = 0
    insn (bpfLdx ||| bpfMem ||| bpfDw) r1 r6 8 0,
    insn (bpfStx ||| bpfMem ||| bpfDw) r10 r1 (-72) 0,
    insn (bpfSt ||| bpfMem ||| bpfW) r10 0 (-80) 0]
  -- args[0..6] = ctx->args[0..6]
  ++ ([(16, -64), (24, -56), (32, -48), (40, -40), (48, -32), (56, -24)] : List (BitVec 16 × BitVec 16)).flatMap
    (fun pair => [
      insn (bpfLdx ||| bpfMem ||| bpfDw) r1 r6 pair.1 0,
      insn (bpfStx ||| bpfMem ||| bpfDw) r10 r1 pair.2 0])
  -- event.ret = 0
  ++ [insn (bpfSt ||| bpfMem ||| bpfDw) r10 0 (-16) 0]
  -- bpf_ringbuf_output(&events, &event, 80, 0)
  ++ ldMapFd r1 ringFd
  ++ [insn (bpfAlu64 ||| bpfMov ||| bpfX) r2 r10 0 0,
    insn (bpfAlu64 ||| bpfAdd ||| bpfK) r2 0 0 (-80),
    insn (bpfAlu64 ||| bpfMov ||| bpfK) r3 0 0 80,
    insn (bpfAlu64 ||| bpfMov ||| bpfK) r4 0 0 0,
    insn (bpfJmp ||| bpfCall) 0 0 0 helperRingbufOutput,
    insn (bpfAlu64 ||| bpfMov ||| bpfK) r0 0 0 0,
    insn (bpfJmp ||| bpfExit) 0 0 0 0]

/-- `build_exit`. -/
def buildExit (pidFd ringFd : BitVec 32) : List U64 :=
  [ insn (bpfAlu64 ||| bpfMov ||| bpfX) r6 r1 0 0,
    insn (bpfJmp ||| bpfCall) 0 0 0 helperGetCurrentPidTgid,
    insn (bpfAlu64 ||| bpfRsh ||| bpfK) r0 0 0 32,
    insn (bpfAlu64 ||| bpfMov ||| bpfX) r7 r0 0 0,
    insn (bpfSt ||| bpfMem ||| bpfW) r10 0 (-4) 0,
    insn (bpfAlu64 ||| bpfMov ||| bpfX) r2 r10 0 0,
    insn (bpfAlu64 ||| bpfAdd ||| bpfK) r2 0 0 (-4)]
  ++ ldMapFd r1 pidFd
  ++ [ insn (bpfJmp ||| bpfCall) 0 0 0 helperMapLookupElem,
    insn (bpfJmp ||| bpfJne ||| bpfK) r0 0 2 0,
    insn (bpfAlu64 ||| bpfMov ||| bpfK) r0 0 0 0,
    insn (bpfJmp ||| bpfExit) 0 0 0 0,
    insn (bpfLdx ||| bpfMem ||| bpfW) r1 r0 0 0,
    insn (bpfJmp ||| bpfJeq ||| bpfX) r1 r7 2 0,
    insn (bpfAlu64 ||| bpfMov ||| bpfK) r0 0 0 0,
    insn (bpfJmp ||| bpfExit) 0 0 0 0,
    -- event.is_exit = 1
    insn (bpfSt ||| bpfMem ||| bpfW) r10 0 (-80) 1,
    -- event.nr = ctx->id
    insn (bpfLdx ||| bpfMem ||| bpfDw) r1 r6 8 0,
    insn (bpfStx ||| bpfMem ||| bpfDw) r10 r1 (-72) 0,
    -- event.ret = ctx->ret
    insn (bpfLdx ||| bpfMem ||| bpfDw) r1 r6 16 0,
    insn (bpfStx ||| bpfMem ||| bpfDw) r10 r1 (-16) 0]
  -- zero args[0..6]
  ++ ([-64, -56, -48, -40, -32, -24] : List (BitVec 16)).map
    (fun dstOff => insn (bpfSt ||| bpfMem ||| bpfDw) r10 0 dstOff 0)
  ++ ldMapFd r1 ringFd
  ++ [insn (bpfAlu64 ||| bpfMov ||| bpfX) r2 r10 0 0,
    insn (bpfAlu64 ||| bpfAdd ||| bpfK) r2 0 0 (-80),
    insn (bpfAlu64 ||| bpfMov ||| bpfK) r3 0 0 80,
    insn (bpfAlu64 ||| bpfMov ||| bpfK) r4 0 0 0,
    insn (bpfJmp ||| bpfCall) 0 0 0 helperRingbufOutput,
    insn (bpfAlu64 ||| bpfMov ||| bpfK) r0 0 0 0,
    insn (bpfJmp ||| bpfExit) 0 0 0 0]

/-! ## Running -/

open Library Library.Bpf

/-- A kernel with the two maps of the tracer. -/
structure Kernel where
  pidFd : BitVec 32
  ringFd : BitVec 32
  maps : BitVec 32 → Option Map
  pids : List U8 → Option Mem
  pids_eq : maps pidFd = some (.hash 4 4 pids)
  ring_eq : maps ringFd = some .ringbuf
  pidTgid : U64
  unknown : Nat → Reg → Val

/-- The kernel at a tracepoint, with its context. -/
def Kernel.world (k : Kernel) (ctxSize : Nat) (ctx : Mem) : World := ⟨k.pidTgid, ctxSize, ctx, k.maps, k.unknown⟩

/-- The state a program starts in: `r1` is the context, `r10` the end of the frame. -/
def entry (regs : Reg → Val) (frame : Mem) : Bpf.State where
  pc := 0
  regs := Function.update (Function.update regs 1#4 (.addr .ctx 0#64)) 10#4 (.addr .frame 512#64)
  frame := frame
  out := []

/-- The bytes of the context of `sys_enter`: the common fields, `id` and six arguments. -/
def enterCtxSize : Nat := 64

/-- The bytes of the context of `sys_exit`: the common fields, `id` and `ret`. -/
def exitCtxSize : Nat := 24

def ctxId (ctx : Mem) : U64 := loadLe 8 ctx 8

def ctxArgs (ctx : Mem) : Args := .ofFn fun i => loadLe 8 ctx (16 + 8 * i)

def ctxRet (ctx : Mem) : U64 := loadLe 8 ctx 16

/-- The map holds the current thread group under the key 0. -/
def Kernel.traced (k : Kernel) : Bool := (k.pids (leBytes 4 0#64)).any fun v => loadLe 4 v 0 = k.pidTgid >>> 32

end Vock.Ebpf
