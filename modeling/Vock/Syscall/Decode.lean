import Vock.Format
import Vock.Syscall.Tables

/-!
# Decoded system calls

The formatters of `vock/src/syscall/decode.rs`, which write a system call as `name(args...) = ret`. A
`Line` keeps its argument positions apart; `Line.text` is what is written.

The constants of libc depend on the target and are a parameter (`Libc`), and so is what
`process_vm_readv` reads.
-/

namespace Vock

/-! ## Reading and printing -/

/-- The constants of libc that are looked for. -/
structure Libc where
  oCreat : U64
  oExcl : U64
  oTrunc : U64
  oAppend : U64
  oNonblock : U64
  oCloexec : U64
  oDirectory : U64
  oLargefile : U64
  mapPrivate : U64
  mapShared : U64
  mapAnonymous : U64
  mapFixed : U64
  mapPopulate : U64
  afUnix : U64
  afInet : U64
  afInet6 : U64
  afNetlink : U64
  afPacket : U64
  sockStream : U64
  sockDgram : U64
  sockRaw : U64
  sockSeqpacket : U64
  sockNonblock : U64
  sockCloexec : U64

/-- What `process_vm_readv` reads at an address; nothing where it fails. -/
abbrev Traced := U64 → Option (List U8)

/-- `read_str`, with its 256 bytes at most. -/
def readStr (mem : Traced) (addr : U64) : Option (List U8) :=
  if addr = 0#64 ∨ 0x0000ffffffffffff#64 < addr then none
  else
    match mem addr with
    | none => none
    | some [] => none
    | some buf => some ((buf.take 256).takeWhile (· ≠ 0#8))

/-- A byte of a printed string. -/
def printByte (c : U8) : List U8 :=
  if 32#8 ≤ c ∧ c < 127#8 then [c]
  else ascii ['\\', 'x'] ++ [digitByte (c.toNat / 16), digitByte (c.toNat % 16)]

def printAddr (addr : U64) : List U8 := if addr = 0#64 then utf8 "NULL" else hex addr

/-- `print_str`. -/
def printStr (mem : Traced) (addr : U64) : List U8 :=
  match readStr mem addr with
  | some buf => if buf ≠ [] then byte '"' :: ((buf.take 64).flatMap printByte ++ [byte '"']) else printAddr addr
  | none => printAddr addr

/-- The names of the bits that are set, in order, and the flags without them. -/
def takeBits : List (U64 × String) → U64 → List (List U8) × U64
  | [], flags => ([], flags)
  | (bit, name) :: bits, flags =>
    if flags &&& bit ≠ 0#64 then
      let rest := takeBits bits (flags &&& ~~~bit)
      (utf8 name :: rest.1, rest.2)
    else takeBits bits flags

/-- Each name behind a bar. -/
def barred (names : List (List U8)) : List U8 := names.flatMap fun name => byte '|' :: name

/-- The flags without a name. -/
def printRest (flags : U64) : List U8 := if flags ≠ 0#64 then byte '|' :: hex flags else []

/-- `print_open_flags`. -/
def printOpenFlags (libc : Libc) (flags : U64) : List U8 :=
  let mode :=
    if flags &&& 3#64 = 0#64 then "O_RDONLY" else if flags &&& 3#64 = 1#64 then "O_WRONLY" else "O_RDWR"
  let bits := takeBits [(libc.oCreat, "O_CREAT"), (libc.oExcl, "O_EXCL"), (libc.oTrunc, "O_TRUNC"),
    (libc.oAppend, "O_APPEND"), (libc.oNonblock, "O_NONBLOCK"), (libc.oCloexec, "O_CLOEXEC"),
    (libc.oDirectory, "O_DIRECTORY"), (libc.oLargefile, "O_LARGEFILE")] (flags &&& ~~~3#64)
  utf8 mode ++ (barred bits.1 ++ printRest bits.2)

/-- `print_mmap_prot`. -/
def printMmapProt (prot : U64) : List U8 :=
  if prot = 0#64 then utf8 "PROT_NONE"
  else
    let bits := takeBits [(1#64, "PROT_READ"), (2#64, "PROT_WRITE"), (4#64, "PROT_EXEC")] prot
    [byte '|'].intercalate bits.1 ++ printRest bits.2

/-- `print_mmap_flags`. -/
def printMmapFlags (libc : Libc) (flags : U64) : List U8 :=
  let share :=
    if flags &&& libc.mapPrivate ≠ 0#64 then utf8 "MAP_PRIVATE"
    else if flags &&& libc.mapShared ≠ 0#64 then utf8 "MAP_SHARED"
    else hex (flags &&& 0xf#64)
  let bits := takeBits [(libc.mapAnonymous, "MAP_ANONYMOUS"), (libc.mapFixed, "MAP_FIXED"),
    (libc.mapPopulate, "MAP_POPULATE")] (flags &&& ~~~0xf#64)
  share ++ (barred bits.1 ++ printRest bits.2)

/-- `print_socket_domain`. -/
def printSocketDomain (libc : Libc) (d : U64) : List U8 :=
  if d = libc.afUnix then utf8 "AF_UNIX"
  else if d = libc.afInet then utf8 "AF_INET"
  else if d = libc.afInet6 then utf8 "AF_INET6"
  else if d = libc.afNetlink then utf8 "AF_NETLINK"
  else if d = libc.afPacket then utf8 "AF_PACKET"
  else showI64 d

/-- `print_socket_type`. -/
def printSocketType (libc : Libc) (ty : U64) : List U8 :=
  let base := ty &&& 0xf#64
  let name :=
    if base = libc.sockStream then utf8 "SOCK_STREAM"
    else if base = libc.sockDgram then utf8 "SOCK_DGRAM"
    else if base = libc.sockRaw then utf8 "SOCK_RAW"
    else if base = libc.sockSeqpacket then utf8 "SOCK_SEQPACKET"
    else showI64 base
  name ++ ((if ty &&& libc.sockNonblock ≠ 0#64 then utf8 "|SOCK_NONBLOCK" else []) ++
    (if ty &&& libc.sockCloexec ≠ 0#64 then utf8 "|SOCK_CLOEXEC" else []))

/-! ## Lines -/

/-- A line: the name, the arguments and the return value. -/
structure Line where
  name : List U8
  args : List (List U8)
  ret : List U8

/-- `name(args...) = ret`. -/
def Line.text (l : Line) : List U8 :=
  l.name ++ byte '(' :: ((ascii [',', ' ']).intercalate l.args ++ (ascii [')', ' ', '=', ' '] ++ (l.ret ++ [byte '\n'])))

/-- `is_at_fdcwd`. -/
def isAtFdcwd (v : U64) : Bool := v = -100#64 ∨ v = 0xffffff9c#64 ∨ v = 0xffffffffffffff9c#64

def fmtOpenat (libc : Libc) (mem : Traced) (a : Args) (ret : U64) : Line where
  name := utf8 "openat"
  args := [if isAtFdcwd a[0] then utf8 "AT_FDCWD" else showI64 a[0], printStr mem a[1],
    printOpenFlags libc a[2]] ++ (if a[2] &&& libc.oCreat ≠ 0#64 then [octal a[3]] else [])
  ret := showI64 ret

def fmtOpen (libc : Libc) (mem : Traced) (a : Args) (ret : U64) : Line where
  name := utf8 "open"
  args := [printStr mem a[0], printOpenFlags libc a[1]] ++
    (if a[1] &&& libc.oCreat ≠ 0#64 then [octal a[2]] else [])
  ret := showI64 ret

/-- What `fmt_read`, `fmt_write` and `fmt_connect` have in common. -/
def fmtBuffer (name : String) (a : Args) (ret : U64) : Line where
  name := utf8 name
  args := [showI64 a[0], hex a[1], dec a[2].toNat]
  ret := showI64 ret

def fmtRead (a : Args) (ret : U64) : Line := fmtBuffer "read" a ret

def fmtWrite (a : Args) (ret : U64) : Line := fmtBuffer "write" a ret

def fmtConnect (a : Args) (ret : U64) : Line := fmtBuffer "connect" a ret

def fmtClose (a : Args) (ret : U64) : Line where
  name := utf8 "close"
  args := [showI64 a[0]]
  ret := showI64 ret

def fmtMmap (libc : Libc) (a : Args) (ret : U64) : Line where
  name := utf8 "mmap"
  args := [printAddr a[0], dec a[1].toNat, printMmapProt a[2], printMmapFlags libc a[3], showI64 a[4], showI64 a[5]]
  ret := hex ret

def fmtMprotect (a : Args) (ret : U64) : Line where
  name := utf8 "mprotect"
  args := [hex a[0], dec a[1].toNat, printMmapProt a[2]]
  ret := showI64 ret

def fmtSocket (libc : Libc) (a : Args) (ret : U64) : Line where
  name := utf8 "socket"
  args := [printSocketDomain libc a[0], printSocketType libc a[1], showI64 a[2]]
  ret := showI64 ret

def fmtExecve (mem : Traced) (a : Args) (ret : U64) : Line where
  name := utf8 "execve"
  args := [printStr mem a[0], hex a[1], hex a[2]]
  ret := showI64 ret

def fmtAccess (mem : Traced) (a : Args) (ret : U64) : Line where
  name := utf8 "access"
  args := [printStr mem a[0], if a[1] = 0#64 then utf8 "F_OK"
    else [byte '|'].intercalate (takeBits [(4#64, "R_OK"), (2#64, "W_OK"), (1#64, "X_OK")] a[1]).1]
  ret := showI64 ret

def fmtBrk (a : Args) (ret : U64) : Line where
  name := utf8 "brk"
  args := [printAddr a[0]]
  ret := hex ret

def fmtGeneric (arch : Arch) (nr : U64) (a : Args) (ret : U64) : Line where
  name := (syscallName arch nr).getD (utf8 "syscall_" ++ showI64 nr)
  args := a.toList.map fun arg => if arg = 0#64 then ascii ['0'] else hex arg
  ret := showI64 ret

/-! ## Dispatch -/

/-- The formatter that `decode_syscall` goes to. -/
def decodeLine (arch : Arch) (libc : Libc) (mem : Traced) (sc : Syscall) : Line :=
  match arch with
  | .x8664 =>
    if sc.nr = 0#64 then fmtRead sc.args sc.ret
    else if sc.nr = 1#64 then fmtWrite sc.args sc.ret
    else if sc.nr = 2#64 then fmtOpen libc mem sc.args sc.ret
    else if sc.nr = 3#64 then fmtClose sc.args sc.ret
    else if sc.nr = 9#64 then fmtMmap libc sc.args sc.ret
    else if sc.nr = 10#64 then fmtMprotect sc.args sc.ret
    else if sc.nr = 12#64 then fmtBrk sc.args sc.ret
    else if sc.nr = 21#64 then fmtAccess mem sc.args sc.ret
    else if sc.nr = 41#64 then fmtSocket libc sc.args sc.ret
    else if sc.nr = 42#64 then fmtConnect sc.args sc.ret
    else if sc.nr = 59#64 then fmtExecve mem sc.args sc.ret
    else if sc.nr = 257#64 then fmtOpenat libc mem sc.args sc.ret
    else fmtGeneric .x8664 sc.nr sc.args sc.ret
  | .aarch64 =>
    if sc.nr = 63#64 then fmtRead sc.args sc.ret
    else if sc.nr = 64#64 then fmtWrite sc.args sc.ret
    else if sc.nr = 56#64 then fmtOpenat libc mem sc.args sc.ret
    else if sc.nr = 57#64 then fmtClose sc.args sc.ret
    else if sc.nr = 222#64 then fmtMmap libc sc.args sc.ret
    else if sc.nr = 226#64 then fmtMprotect sc.args sc.ret
    else if sc.nr = 214#64 then fmtBrk sc.args sc.ret
    else if sc.nr = 198#64 then fmtSocket libc sc.args sc.ret
    else if sc.nr = 203#64 then fmtConnect sc.args sc.ret
    else if sc.nr = 221#64 then fmtExecve mem sc.args sc.ret
    else fmtGeneric .aarch64 sc.nr sc.args sc.ret

/-- `decode_syscall`. -/
def decodeSyscall (arch : Arch) (libc : Libc) (mem : Traced) (sc : Syscall) : List U8 :=
  (decodeLine arch libc mem sc).text

end Vock
