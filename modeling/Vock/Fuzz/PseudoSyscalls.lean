import Mathlib.Data.List.AList
import Vock.Format
import Vock.Library.Checked

/-!
# USB programs

The pseudo system calls of `vock/src/fuzz/pseudo_syscalls.rs` and the pass over a program, `run_once`.

The kernel answers what is asked of it from lists: results of `open` and of the requests (−1 behind the last), and what
`USB_RAW_IOCTL_EVENT_FETCH` fetches (`none` where it fails, as when the alarm rings). Disabling an endpoint succeeds.
Descriptors are numbered in the order they are opened and not reused, and plain system calls leave them alone. Names
and paths are bytes; the order in which a table is drained is that of its entries. The pauses are left out, and so is
the parser of programs.
-/

namespace Vock.Fuzz.PseudoSyscalls

/-! ## The kernel -/

/-- What is asked of a raw gadget. An endpoint that is enabled is named by its interface and its place there. -/
inductive Request where
  | init (speed : U8) (device : List U8)
  | run
  | configure
  | vbusDraw (power : Nat)
  | ep0Stall
  | ep0Io (write : Bool) (data : List U8)
  | epEnable (ep : Nat × Nat) (desc : List U8)
  | epDisable (handle : Int)
  deriving DecidableEq

structure Ioctl where
  fd : Nat
  request : Request
  result : Int
  deriving DecidableEq

/-- The kernel, as far as it has been asked and as it will answer. -/
structure World where
  opened : Nat
  closed : List Nat
  ioctls : List Ioctl
  results : List Int
  events : List (Option (BitVec 32 × Vector U8 8))

abbrev Usb := StateM World

/-- The next result. -/
def answer : Usb Int := fun w => (w.results.headD (-1), { w with results := w.results.tail })

/-- `open`. -/
def openFile : Usb (Except Int Nat) := do
  let rv ← answer
  if rv < 0 then return .error rv
  modifyGet fun w => (.ok w.opened, { w with opened := w.opened + 1 })

def close (fd : Nat) : Usb Unit := modify fun w => { w with closed := w.closed ++ [fd] }

def ioctl (fd : Nat) (request : Request) : Usb Int := do
  let rv ← answer
  modifyGet fun w => (rv, { w with ioctls := w.ioctls ++ [⟨fd, request, rv⟩] })

/-- `usb_raw_ep_disable`. -/
def usbRawEpDisable (fd : Nat) (handle : Int) : Usb Unit :=
  modify fun w => { w with ioctls := w.ioctls ++ [⟨fd, .epDisable handle, 0⟩] }

/-! ## Control requests -/

structure CtrlRequest where
  bRequestType : U8
  bRequest : U8
  wValue : BitVec 16
  wIndex : BitVec 16
  wLength : BitVec 16

/-- `u16::from_le_bytes`. -/
def u16 (lo hi : U8) : BitVec 16 := hi ++ lo

def CtrlRequest.parse (d : Vector U8 8) : CtrlRequest :=
  ⟨d[0], d[1], u16 d[2] d[3], u16 d[4] d[5], u16 d[6] d[7]⟩

def CtrlRequest.dirIn (ctrl : CtrlRequest) : Bool := ctrl.bRequestType &&& 0x80#8 != 0#8

/-- `b_request_type & USB_TYPE_MASK == USB_TYPE_STANDARD`. -/
def CtrlRequest.standard (ctrl : CtrlRequest) : Bool := ctrl.bRequestType &&& 0x60#8 == 0#8

/-- `USB_REQ_GET_DESCRIPTOR`. -/
def getDescriptor : U8 := 0x06#8

/-- `USB_REQ_SET_CONFIGURATION`. -/
def setConfiguration : U8 := 0x09#8

/-- `USB_REQ_SET_INTERFACE`. -/
def reqSetInterface : U8 := 0x0b#8

/-- `USB_MAX_PACKET_SIZE`. -/
def usbMaxPacketSize : Nat := 4096

/-! ## Devices -/

structure EpIndex where
  desc : List U8
  handle : Int
  deriving DecidableEq

structure IfaceIndex where
  bInterfaceNumber : U8
  bAlternateSetting : U8
  eps : List EpIndex
  deriving DecidableEq

structure DeviceIndex where
  dev : List U8
  config : List U8
  bMaxPower : U8
  ifaces : List IfaceIndex
  ifaceCur : Int
  deriving DecidableEq

/-- An endpoint more of the last interface. -/
def pushEp (desc : List U8) (ifaces : List IfaceIndex) : List IfaceIndex :=
  match ifaces.getLast? with
  | none => ifaces
  | some iface =>
    ifaces.dropLast ++
      [{ iface with eps := iface.eps ++ [⟨desc.take 9 ++ List.replicate (9 - desc.length) 0#8, -1⟩] }]

/-- A descriptor of the loop of `parse_usb_descriptor`. -/
def pushDescriptor (ifaces : List IfaceIndex) : List U8 → List IfaceIndex
  | desc@(_ :: ty :: rest) =>
    let ifaces := if ty = 0x04#8 ∧ 9 ≤ desc.length then ifaces ++ [⟨rest.headD 0#8, rest.tail.headD 0#8, []⟩] else ifaces
    if ty = 0x05#8 then pushEp desc ifaces else ifaces
  | _ => ifaces

/-- The loop of `parse_usb_descriptor`, with the number of bytes up to the next descriptor. -/
def pushDescriptors : Nat → List IfaceIndex → List U8 → List IfaceIndex
  | _, ifaces, [] => ifaces
  | skip + 1, ifaces, _ :: rest => pushDescriptors skip ifaces rest
  | 0, ifaces, len :: rest =>
    if rest = [] ∨ len.toNat ≤ 2 ∨ rest.length + 1 < len.toNat then ifaces
    else pushDescriptors (len.toNat - 1) (pushDescriptor ifaces ((len :: rest).take len.toNat)) rest

/-- `parse_usb_descriptor`. -/
def parseUsbDescriptor (buf : List U8) : Option DeviceIndex :=
  if buf.length < 18 + 9 then none
  else
    some
      { dev := buf.take 18
        config := buf.drop 18
        bMaxPower := buf.getD (18 + 8) 0#8
        ifaces := pushDescriptors 0 [] buf
        ifaceCur := -1 }

/-- The interface at an index, if it is one. -/
def DeviceIndex.iface? (index : DeviceIndex) (n : Int) : Option IfaceIndex :=
  if 0 ≤ n then index.ifaces[n.toNat]? else none

/-- The endpoints of the interface that is left. -/
def disableEps (fd : Nat) : List EpIndex → Usb Unit
  | [] => pure ()
  | ep :: eps => do
    if 0 ≤ ep.handle then usbRawEpDisable fd ep.handle
    disableEps fd eps

/-- The endpoints of the interface that is selected, from the `i`-th on. -/
def enableEps (fd n i : Nat) : List EpIndex → Usb (List EpIndex)
  | [] => pure []
  | ep :: eps => do
    let rv ← ioctl fd (.epEnable (n, i) ep.desc)
    let eps ← enableEps fd n (i + 1) eps
    return { ep with handle := if 0 ≤ rv then rv else ep.handle } :: eps

/-- The first part of `set_interface`. -/
def leaveInterface (fd : Nat) (index : DeviceIndex) : Usb Unit :=
  match index.iface? index.ifaceCur with
  | none => pure ()
  | some iface => disableEps fd iface.eps

/-- `set_interface`. -/
def setInterface (fd : Nat) (index : DeviceIndex) (n : Int) : Usb DeviceIndex := do
  leaveInterface fd index
  match index.iface? n with
  | none => return index
  | some iface =>
    let eps ← enableEps fd n.toNat 0 iface.eps
    return { index with ifaces := index.ifaces.set n.toNat { iface with eps }, ifaceCur := n }

/-- `configure_device`. -/
def configureDevice (fd : Nat) (index : DeviceIndex) : Usb (Int × DeviceIndex) := do
  let rv ← ioctl fd (.vbusDraw index.bMaxPower.toNat)
  if rv < 0 then return (rv, index)
  let rv ← ioctl fd .configure
  if rv < 0 then return (rv, index)
  return (0, ← setInterface fd index 0)

/-- `lookup_connect_response_in`. -/
def lookupConnectResponseIn (index : DeviceIndex) (ctrl : CtrlRequest) : Option (List U8) :=
  if !ctrl.standard || ctrl.bRequest != getDescriptor then none
  else
    let descType := ctrl.wValue.extractLsb' 8 8
    let strIdx := ctrl.wValue.extractLsb' 0 8
    if descType = 0x01#8 then some index.dev
    else if descType = 0x02#8 then some index.config
    else if descType = 0x03#8 then
      if strIdx = 0#8 then some [4#8, 0x03#8, 0x09#8, 0x04#8]
      else some [8#8, 0x03#8, byte 's', 0#8, byte 'y', 0#8, byte 'z', 0#8]
    else if descType = 0x06#8 then
      if index.dev.length < 18 then none
      else some ([10#8, 0x06#8] ++ (index.dev.drop 2).take 6 ++ [index.dev.getD 17 0#8, 0#8])
    else none

/-- `lookup_interface`. -/
def lookupInterface (index : DeviceIndex) (num alt : U8) : Option Nat :=
  index.ifaces.findIdx? fun f => f.bInterfaceNumber = num ∧ f.bAlternateSetting = alt

/-! ## Pseudo system calls -/

structure UsbDevice where
  fd : Nat
  index : DeviceIndex
  deriving DecidableEq

/-- Gives up the descriptor of a device that does not connect. -/
def giveUp {α : Type} (fd : Nat) (rv : Int) : Usb (Except Int α) := do
  close fd
  return .error rv

/-- The loop of `syz_usb_connect`. -/
def enumerate (fd : Nat) : List (Option (BitVec 32 × Vector U8 8)) → DeviceIndex → Usb (Except Int DeviceIndex)
  | [], _ => giveUp fd (-1)
  | none :: rest, _ => do
    modify fun w => { w with events := rest }
    giveUp fd (-1)
  | some (ty, data) :: rest, index => do
    modify fun w => { w with events := rest }
    let ctrl := CtrlRequest.parse data
    let configures := ctrl.standard && ctrl.bRequest == setConfiguration
    let response := if ctrl.dirIn then lookupConnectResponseIn index ctrl else if configures then some [] else none
    if ty ≠ 2#32 then enumerate fd rest index
    else
      match response with
      | none =>
        let _ ← ioctl fd .ep0Stall
        enumerate fd rest index
      | some resp =>
        let (rv, index) ← if configures then configureDevice fd index else pure (0, index)
        if rv < 0 then giveUp fd rv
        else
          let rv ← ioctl fd (.ep0Io ctrl.dirIn ((resp.take ctrl.wLength.toNat).take usbMaxPacketSize))
          if rv < 0 then giveUp fd rv
          else if ctrl.dirIn then enumerate fd rest index
          else return .ok index

/-- The name of an instance of the controller. -/
def dummyUdc (procid : U64) : List U8 := ascii ['d', 'u', 'm', 'm', 'y', '_', 'u', 'd', 'c', '.'] ++ dec procid.toNat

/-- `syz_usb_connect`, from the descriptor on. -/
def bringUp (speed : U8) (procid : U64) (fd : Nat) (index : DeviceIndex) : Usb (Except Int DeviceIndex) := do
  let rv ← ioctl fd (.init speed (dummyUdc procid))
  let rv ← if rv < 0 ∧ procid ≠ 0#64 then ioctl fd (.init speed (dummyUdc 0#64)) else pure rv
  if rv < 0 then giveUp fd rv
  else
    let rv ← ioctl fd .run
    if rv < 0 then giveUp fd rv else enumerate fd (← get).events index

/-- `syz_usb_connect`. -/
def syzUsbConnect (speed : U8) (dev : List U8) (procid : U64) : Usb (Except Int UsbDevice) :=
  match parseUsbDescriptor dev with
  | none => return .error (-1)
  | some index => do
    match ← openFile with
    | .error rv => return .error rv
    | .ok fd => return (← bringUp speed procid fd index).map (UsbDevice.mk fd)

/-- `usb_raw_event_fetch`. -/
def usbRawEventFetch : Usb (Option (BitVec 32 × Vector U8 8)) :=
  modifyGet fun w => (w.events.head?.join, { w with events := w.events.tail })

/-- `syz_usb_control_io`, with the index of the device afterwards. -/
def syzUsbControlIo (d : UsbDevice) : Usb DeviceIndex := do
  match ← usbRawEventFetch with
  | none => return d.index
  | some (ty, data) =>
    if ty ≠ 2#32 then return d.index
    else
      let ctrl := CtrlRequest.parse data
      let index ←
        if ctrl.dirIn ∧ ctrl.wLength ≠ 0#16 then pure d.index
        else if ctrl.standard ∨ ctrl.bRequest = reqSetInterface then
          match lookupInterface d.index (ctrl.wIndex.setWidth 8) (ctrl.wValue.setWidth 8) with
          | some i => setInterface d.fd d.index i
          | none => pure d.index
        else pure d.index
      let length := if ctrl.dirIn ∧ ctrl.wLength = 0#16 then usbMaxPacketSize else ctrl.wLength.toNat
      let _ ← ioctl d.fd
        (.ep0Io (ctrl.dirIn ∧ ctrl.wLength ≠ 0#16) (List.replicate (min length usbMaxPacketSize) 0#8))
      return index

/-- The path of `syz_open_dev`, with how many places have been filled. -/
def fillPath (id id2 : U64) : Nat → List U8 → List U8
  | _, [] => []
  | seen, c :: cs =>
    if c = byte '#' then dec (if seen = 0 then id else id2).toNat ++ fillPath id id2 (seen + 1) cs
    else c :: fillPath id id2 seen cs

/-- `syz_open_dev`. -/
def syzOpenDev (path : List U8) (id id2 : U64) : Usb (Except Int Nat) :=
  if 0#8 ∈ fillPath id id2 0 path then return .error (-1) else openFile

/-! ## Programs -/

inductive Op where
  | connect (res : Option (List U8)) (speed : U8) (dev : List U8)
  | controlIo (fd : List U8)
  | disconnect (fd : List U8)
  | openDev (res : Option (List U8)) (path : List U8) (id id2 : U64)
  | raw (nr : U64) (args : Vector U64 6)

/-- What a pass holds: devices and descriptors, by their names. -/
structure Resources where
  usb : AList fun _ : List U8 => UsbDevice
  fds : AList fun _ : List U8 => Nat

/-- The name of a device without one. -/
def anon (n : Nat) : List U8 := ascii ['_', '_', 'a', 'n', 'o', 'n'] ++ dec n

/-- The name a device is kept under. -/
def deviceKey (r : Resources) (res : Option (List U8)) : List U8 := res.getD (anon r.usb.entries.length)

/-- An operation of `run_once`. -/
def runOp (procid : U64) (r : Resources) : Op → Usb Resources
  | .connect res speed dev => do
    match ← syzUsbConnect speed dev procid with
    | .error _ => return r
    | .ok d => return { r with usb := r.usb.insert (deviceKey r res) d }
  | .controlIo fd =>
    match r.usb.lookup fd with
    | none => return r
    | some d => do
      let index ← syzUsbControlIo d
      return { r with usb := r.usb.replace fd { d with index } }
  | .disconnect fd =>
    match r.usb.lookup fd with
    | none => return r
    | some d => do
      close d.fd
      return { r with usb := r.usb.erase fd }
  | .openDev res path id id2 => do
    match ← syzOpenDev path id id2 with
    | .error _ => return r
    | .ok fd =>
      match res with
      | none => return r
      | some name => return { r with fds := r.fds.insert name fd }
  | .raw _ _ => return r

/-- Closes descriptors one after the other. -/
def closeAll : List Nat → Usb Unit
  | [] => pure ()
  | fd :: rest => do
    close fd
    closeAll rest

/-- The loop of `run_once`. -/
def runOps (procid : U64) (r : Resources) : List Op → Usb Resources
  | [] => return r
  | op :: ops => do runOps procid (← runOp procid r op) ops

/-- `run_once`. -/
def runOnce (ops : List Op) (procid : U64) : Usb Unit := do
  let r ← runOps procid ⟨∅, ∅⟩ ops
  closeAll (r.usb.entries.map (·.2.fd))
  closeAll (r.fds.entries.map (·.2))

/-! ## The index, as the machine checks it

`parse_usb_descriptor` once more, with positions where `parseUsbDescriptor` has the bytes that are left: an index or a
slice outside of the bytes is a fault, and so is a loop that goes on past the last of them. -/

namespace Machine

open Library Checked

/-- `ep[..n].copy_from_slice(desc)`, where `n` is the length of `desc`. -/
def copyFront (ep desc : List U8) : Checked (List U8) :=
  if desc.length ≤ ep.length then pure (desc ++ ep.drop desc.length) else stop .index

def pushEp (buf : List U8) (off descLen : Nat) (ifaces : List IfaceIndex) : Checked (List IfaceIndex) := do
  let iface ← ifaces.getLast?.elim (stop .index) pure
  let desc ← slice buf off (off + min descLen 9)
  let ep ← copyFront (List.replicate 9 0#8) desc
  pure (ifaces.dropLast ++ [{ iface with eps := iface.eps ++ [⟨ep, -1⟩] }])

def pushIface (buf : List U8) (off : Nat) (ifaces : List IfaceIndex) : Checked (List IfaceIndex) := do
  let bInterfaceNumber ← get buf (off + 2)
  let bAlternateSetting ← get buf (off + 3)
  pure (ifaces ++ [⟨bInterfaceNumber, bAlternateSetting, []⟩])

def pushDescriptor (buf : List U8) (off descLen : Nat) (descType : U8) (ifaces : List IfaceIndex) :
    Checked (List IfaceIndex) :=
  (if descType = 0x04#8 ∧ 9 ≤ descLen then pushIface buf off ifaces else pure ifaces) >>= fun ifaces =>
    if descType = 0x05#8 ∧ ifaces ≠ [] then pushEp buf off descLen ifaces else pure ifaces

/-- A round of the loop, from `off` and the interfaces so far. -/
def round (buf : List U8) (s : Nat × List IfaceIndex) : Checked (Nat × List IfaceIndex ⊕ List IfaceIndex) :=
  if s.1 + 1 < buf.length then do
    let len ← get buf s.1
    let descType ← get buf (s.1 + 1)
    if len.toNat ≤ 2 ∨ buf.length < s.1 + len.toNat then pure (.inr s.2)
    else
      let ifaces ← pushDescriptor buf s.1 len.toNat descType s.2
      pure (.inl (s.1 + len.toNat, ifaces))
  else pure (.inr s.2)

def parseUsbDescriptor (buf : List U8) : Checked DeviceIndex :=
  if buf.length < 18 + 9 then failure
  else do
    let dev ← slice buf 0 18
    let config ← slice buf 18 buf.length
    let bMaxPower ← get buf (18 + 8)
    let ifaces ← repeatFor (round buf) (buf.length + 1) (0, [])
    pure { dev, config, bMaxPower, ifaces, ifaceCur := -1 }

end Machine

end Vock.Fuzz.PseudoSyscalls
