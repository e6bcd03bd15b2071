import SmartQ.Usb.Bulk

/-!
# The USB control endpoint

Model of the endpoint 0 code of `usbd-otg-hs.c` (qi-usb-lcd): `s3c_usb_ep0_int_hndlr`,
`s3c_usb_transfer_ep0`, `s3c_usb_reset` and what they call. A step is one interrupt. Of
the registers only the FIFO of the endpoint is kept: the bytes one interrupt writes to it
are one packet.
-/

namespace SmartQ.Usb.Control

open SmartQ.Lib

/-! ## State -/

/-- `enum EP0_STATE`, without the four values nothing uses. -/
inductive Ep0State
  | init
  | gdDev0 | gdDev1 | gdDev2
  | gdCfg0 | gdCfg1 | gdCfg2 | gdCfg3 | gdCfg4
  | gdStrI0 | gdStrI1 | gdStrI2
  | gdDevQualifier
  | interfaceGet
  | getStatus0 | getStatus1 | getStatus2 | getStatus3 | getStatus4
  | gdOtherSpeed
  | gdCfgOnly0 | gdCfgOnly1
  | gdIfOnly0 | gdIfOnly1
  | gdEp0Only0 | gdEp1Only0
  | gdOtherSpeedHigh1 | gdOtherSpeedHigh2 | gdOtherSpeedHigh3
  deriving DecidableEq, Repr

/-- `device_req_t`: the eight bytes of a SETUP packet, as the handler reads them. -/
structure DeviceReq where
  bmRequestType : Byte
  bRequest : Byte
  wValueL : Byte
  wValueH : Byte
  wIndexL : Byte
  wIndexH : Byte
  wLengthL : Byte
  wLengthH : Byte
  deriving DecidableEq, Repr

/-- `wLength`: the bytes that the host is ready to take or is going to send. -/
def DeviceReq.wLength (r : DeviceReq) : ℕ := r.wLengthH.toNat * 2 ^ 8 + r.wLengthL.toNat

/-- `get_status_t`: the bytes that are sent for a GET_STATUS, one for each recipient. -/
structure GetStatus where
  device : Byte
  interface : Byte
  epCtrl : Byte
  epIn : Byte
  epOut : Byte
  deriving DecidableEq, Repr

/-- The globals the endpoint uses: `otg`, `get_status`, `get_intf`, `config_value` and
    `remode_wakeup`. -/
structure Ep0 where
  speed : Speed
  ep0State : Ep0State
  ep0Substate : ℕ
  reqLength : ℕ
  setConfig : Bool
  configValue : Byte
  remodeWakeup : Bool
  status : GetStatus
  alternateSetting : Byte
  deriving DecidableEq, Repr

/-- `HS_CTRL_PKT_SIZE` and `FS_CTRL_PKT_SIZE`: the largest packet of endpoint 0. -/
def ctrlPktSize : Speed → ℕ
  | .high => 64
  | .full => 8

/-- `otg.ctrl_max_pktsize`, set together with `otg.speed`. -/
def Ep0.ctrlMaxPktsize (s : Ep0) : ℕ := ctrlPktSize s.speed

/-! ## Descriptors -/

/-- The objects the endpoint sends from. `config` is `otg.desc.config` with the
    interface and the two endpoint descriptors right behind it. -/
inductive Src
  | dev | config | intf | ep1 | ep2
  | stringDesc0 | stringDesc1 | stringDesc2
  | qualifierDesc
  | configFull | configFullTotal | configHigh | configHighTotal
  | getIntf | getStatus
  deriving DecidableEq, Repr

/-- `otg.desc.dev` as `s3c_usb_set_descriptors` fills it in. -/
def deviceDesc (speed : Speed) : List Byte :=
  ([18, 1] : List Byte) ++ (match speed with | .high => [0x00, 0x02] | .full => [0x10, 0x01]) ++
    [0xff, 0, 0, UInt8.ofNat (ctrlPktSize speed), 0xe8, 0x04, 0x34, 0x12, 0x00, 0x01, 1, 2, 0, 1]

/-- `otg.desc.intf`: one interface of the vendor's class with two endpoints. -/
def intfDesc : List Byte := [9, 4, 0, 0, 2, 0xff, 0, 0, 0]

/-- `otg.desc.ep1` (bulk IN) and `otg.desc.ep2` (bulk OUT). -/
def epDesc (speed : Speed) (address : Byte) : List Byte :=
  [7, 5, address, 2, UInt8.ofNat speed.bulkPktSize, UInt8.ofNat (speed.bulkPktSize / 2 ^ 8), 0]

/-- The `CONFIG_DESC_TOTAL_SIZE` bytes from `otg.desc.config` on. -/
def configDesc (speed : Speed) : List Byte :=
  [9, 2, 32, 0, 1, 1, 0, 0xc0, 25] ++ intfDesc ++ epDesc speed 0x81 ++ epDesc speed 0x02

/-- `string_desc0`: the language is English. -/
def stringDesc0 : List Byte := [4, 3, 0x09, 0x04]

/-- A string descriptor of ASCII characters. -/
def stringDesc (chars : List Byte) : List Byte :=
  UInt8.ofNat (2 * chars.length + 2) :: 3 :: chars.flatMap fun c => [c, 0]

/-- "System MCU", the name of the device that a host may ask for. -/
def stringDesc1 : List Byte := stringDesc [83, 121, 115, 116, 101, 109, 32, 77, 67, 85]

/-- "SEC S3C6400X Test B/D" -/
def stringDesc2 : List Byte :=
  stringDesc [83, 69, 67, 32, 83, 51, 67, 54, 52, 48, 48, 88, 32, 84, 101, 115, 116, 32, 66, 47, 68]

/-- `qualifier_desc`, which a host asks a device of full speed for. -/
def qualifierDesc : List Byte := [0x0a, 6, 0x00, 0x02, 0xff, 0, 0, 64, 1, 0]

/-- `config_full` and `config_high`: the descriptor of the configuration at the other speed. -/
def otherConfig : List Byte := [9, 7, 0x20, 0, 1, 1, 0, 0xc0, 0x19]

/-- `config_full_total`: the configuration of full speed, with endpoints 3 and 4. -/
def configFullTotal : List Byte :=
  otherConfig ++ [9, 4, 0, 0, 2, 0xff, 0, 0, 0, 7, 5, 0x83, 2, 0x40, 0, 0, 7, 5, 0x04, 2, 0x40, 0, 0]

/-- `config_high_total`: the configuration of high speed, with packets of 512 bytes. -/
def configHighTotal : List Byte :=
  otherConfig ++ [9, 4, 0, 0, 2, 0xff, 0, 0, 0, 7, 5, 0x81, 2, 0, 2, 0, 7, 5, 0x02, 2, 0, 2, 0]

/-- The bytes of an object that endpoint 0 can send from. -/
def storage (s : Ep0) : Src → List Byte
  | .dev => deviceDesc s.speed
  | .config => configDesc s.speed
  | .intf => intfDesc
  | .ep1 => epDesc s.speed 0x81
  | .ep2 => epDesc s.speed 0x02
  | .stringDesc0 => stringDesc0
  | .stringDesc1 => stringDesc1
  | .stringDesc2 => stringDesc2
  | .qualifierDesc => qualifierDesc
  | .configFull => otherConfig
  | .configFullTotal => configFullTotal
  | .configHigh => otherConfig
  | .configHighTotal => configHighTotal
  | .getIntf => [s.alternateSetting]
  | .getStatus =>
    [s.status.device, s.status.interface, s.status.epCtrl, s.status.epIn, s.status.epOut]

/-! ## The SETUP packet -/

/-- `s3c_usb_get_desc` (lines 597–666): the descriptor that is asked for becomes the state to
    send from. -/
def getDesc (r : DeviceReq) (s : Ep0) : Ep0 :=
  let long := { s with reqLength := r.wLength }
  match r.wValueH.toNat with
  | 1 => { long with ep0State := .gdDev0 }
  | 2 => { long with ep0State := if 9 < r.wLength then .gdCfg0 else .gdCfgOnly0 }
  | 3 => match r.wValueL.toNat with
    | 0 => { s with ep0State := .gdStrI0 }
    | 1 => { s with ep0State := .gdStrI1 }
    | 2 => { s with ep0State := .gdStrI2 }
    | _ => s
  | 5 => match r.wValueL.toNat % 16 with
    | 0 => { s with ep0State := .gdEp0Only0 }
    | 1 => { s with ep0State := .gdEp1Only0 }
    | _ => s
  | 6 => { long with ep0State := .gdDevQualifier }
  | 7 => { long with ep0State := .gdOtherSpeed }
  | _ => s

/-- The halt bits that `s3c_usb_clear_feature` (lines 668–699) and
    `s3c_usb_set_feature` (lines 701–785) write for an endpoint. -/
def setHalt (r : DeviceReq) (v : Byte) (st : GetStatus) : GetStatus :=
  match r.wIndexL.toNat % 128 with
  | 0 => { st with epCtrl := v }
  | 1 => { st with epIn := v }
  | 2 => { st with epOut := v }
  | _ => st

/-- `s3c_usb_clear_feature` and `s3c_usb_set_feature`. The test modes only write
    registers. -/
def feature (r : DeviceReq) (on : Bool) (s : Ep0) : Ep0 :=
  let s := match r.bmRequestType.toNat with
    | 0 => if r.wValueL = 1 then { s with remodeWakeup := on } else s
    | 2 => if r.wValueL = 0 then
        { s with status := setHalt r (if on then 1 else 0) s.status } else s
    | _ => s
  { s with ep0State := .init }

/-- `s3c_usb_get_status` (lines 787–819): the status of the recipient becomes the state to send
    from. -/
def getStatus (r : DeviceReq) (s : Ep0) : Ep0 :=
  match r.bmRequestType.toNat with
  | 0x80 => { s with
      status := { s.status with device := if s.remodeWakeup then 3 else 1 }
      ep0State := .getStatus0 }
  | 0x81 => { s with status := { s.status with interface := 0 }, ep0State := .getStatus1 }
  | 0x82 => match r.wIndexL.toNat % 128 with
    | 0 => { s with ep0State := .getStatus2 }
    | 1 => { s with ep0State := .getStatus3 }
    | 2 => { s with ep0State := .getStatus4 }
    | _ => s
  | _ => s

/-- The SETUP packet is read from the FIFO and decoded. -/
def Ep0.Parses (s : Ep0) : Prop := s.ep0State = .init

instance (s : Ep0) : Decidable s.Parses := inferInstanceAs (Decidable (s.ep0State = .init))

/-- `s3c_usb_ep0_int_hndlr` (lines 821–931): a SETUP packet. -/
def ep0IntHndlr (r : DeviceReq) (s : Ep0) : Ep0 :=
  if s.Parses then
    match r.bRequest.toNat with
    | 0 => getStatus r s
    | 1 => feature r false s
    | 3 => feature r true s
    | 5 => { s with ep0State := .init }
    | 6 => getDesc r s
    | 9 => { s with configValue := r.wValueL, setConfig := true, ep0State := .init }
    | 8 => { s with ep0State := .init }
    | 10 => { s with ep0State := .interfaceGet }
    | 11 => { s with alternateSetting := r.wValueL, ep0State := .init }
    | 12 => { s with ep0State := .init }
    | _ => s
  else s

/-! ## IN tokens -/

/-- What one IN-token interrupt puts into the FIFO: `num` bytes from offset `off` of an
    object, an empty packet, or nothing. -/
inductive Out
  | packet (src : Src) (off num : ℕ)
  | zlp
  | nak
  deriving DecidableEq, Repr

/-- Send `num` bytes and go on to `next`. -/
def Ep0.send (s : Ep0) (src : Src) (off num : ℕ) (next : Ep0State) : Ep0 × Out :=
  ({ s with ep0State := next }, .packet src off num)

/-- The packet at `off` of a descriptor sent in packets of `FS_CTRL_PKT_SIZE`: the last
    one if less than a packet is asked for behind `off`. -/
def Ep0.sendPart (s : Ep0) (src : Src) (off : ℕ) (next : Ep0State) : Ep0 × Out :=
  if s.reqLength < off + 8 then s.send src off (s.reqLength - off) .init
  else s.send src off 8 next

/-- `s3c_usb_set_otherspeed_conf_desc` (lines 933–969): the packets of the descriptor, by the
    speed and the length asked for. -/
def setOtherspeedConfDesc (s : Ep0) : Ep0 × Out :=
  match s.speed with
  | .high =>
    ({ s with ep0State := .init },
      if s.reqLength = 9 then .packet .configFull 0 9
      else if s.reqLength = 32 then .packet .configFullTotal 0 32
      else .nak)
  | .full =>
    ({ s with ep0State := .gdOtherSpeedHigh1 },
      if s.reqLength = 9 then .packet .configHigh 0 8
      else if s.reqLength = 32 then .packet .configHighTotal 0 8
      else .nak)

/-- The states `EP0_STATE_GD_STR_I1` and `EP0_STATE_GD_STR_I2` (lines 1338–1388) of a
    string of `size` bytes. The length of the last packet is negative where an earlier
    string left its substate behind; then the loop of `s3c_usb_write_ep0_fifo` does not
    run. -/
def sendString (s : Ep0) (src : Src) (size : ℕ) : Ep0 × Out :=
  let off := s.ep0Substate * s.ctrlMaxPktsize
  if off + s.ctrlMaxPktsize < size then
    ({ s with ep0Substate := s.ep0Substate + 1 }, .packet src off s.ctrlMaxPktsize)
  else
    ({ s with ep0State := .init, ep0Substate := 0 },
      if off ≤ size then .packet src off (size - off) else .nak)

/-- `s3c_usb_transfer_ep0` (lines 971–1439): an IN-token interrupt. -/
def transferEp0 (s : Ep0) : Ep0 × Out :=
  match s.ep0State with
  | .init => (s, .zlp)
  | .gdDev0 => match s.speed with
    | .high => s.send .dev 0 (min s.reqLength 18) .init
    | .full => s.sendPart .dev 0 .gdDev1
  | .gdDev1 => s.sendPart .dev 8 .gdDev2
  | .gdDev2 => s.send .dev 16 (min s.reqLength 18 - 16) .init
  | .gdCfg0 => match s.speed with
    | .high => s.send .config 0 (min s.reqLength 32) .init
    | .full => s.sendPart .config 0 .gdCfg1
  | .gdCfg1 => s.sendPart .config 8 .gdCfg2
  | .gdCfg2 => s.sendPart .config 16 .gdCfg3
  | .gdCfg3 => s.sendPart .config 24 .gdCfg4
  | .gdCfg4 => ({ s with ep0State := .init }, .nak)
  | .gdDevQualifier => s.send .qualifierDesc 0 (min s.reqLength 10) .init
  | .gdOtherSpeed => setOtherspeedConfDesc s
  | .gdOtherSpeedHigh1 =>
    if s.reqLength = 9 then s.send .configHigh 8 1 .init
    else s.send .configHigh 8 8 .gdOtherSpeedHigh2
  | .gdOtherSpeedHigh2 => s.send .configHigh 16 8 .gdOtherSpeedHigh3
  | .gdOtherSpeedHigh3 => s.send .configHigh 24 8 .init
  | .gdCfgOnly0 => match s.speed with
    | .high => s.send .config 0 (min s.reqLength 9) .init
    | .full => s.sendPart .config 0 .gdCfgOnly1
  | .gdCfgOnly1 => s.send .config 8 1 .init
  | .gdIfOnly0 => match s.speed with
    | .high => s.send .intf 0 (min s.reqLength 9) .init
    | .full => s.sendPart .intf 0 .gdIfOnly1
  | .gdIfOnly1 => s.send .intf 8 1 .init
  | .gdEp0Only0 => s.send .ep1 0 7 .init
  | .gdEp1Only0 => s.send .ep2 0 7 .init
  | .gdStrI0 => s.send .stringDesc0 0 4 .init
  | .gdStrI1 => sendString s .stringDesc1 22
  | .gdStrI2 => sendString s .stringDesc2 44
  | .interfaceGet => s.send .getIntf 0 1 .init
  | .getStatus0 => s.send .getStatus 0 1 .init
  | .getStatus1 => s.send .getStatus 1 1 .init
  | .getStatus2 => s.send .getStatus 2 1 .init
  | .getStatus3 => s.send .getStatus 3 1 .init
  | .getStatus4 => s.send .getStatus 4 1 .init

/-- `k` IN-token interrupts, each of which may send a packet from the state. -/
def inTokens : ℕ → Ep0 → Ep0 × List Out
  | 0, s => (s, [])
  | k + 1, s =>
    let (s1, o) := transferEp0 s
    let (s2, os) := inTokens k s1
    (s2, o :: os)

/-! ## Transfers -/

/-- How a transfer ends: with the next SETUP packet, or with a bus reset after which
    the bus runs at `speed`. -/
inductive Ending
  | setup
  | reset (speed : Speed)
  deriving DecidableEq, Repr

/-- A SETUP packet, the IN tokens the host sends for it, and how the host goes on. -/
structure Transfer where
  req : DeviceReq
  tokens : ℕ
  ending : Ending

/-- `s3c_usb_reset` (lines 1924–1950) and, when the speed is known, `s3c_usb_set_init`. -/
def usbReset (speed : Speed) (s : Ep0) : Ep0 := { s with ep0State := .init, speed := speed }

/-- What the driver sends in a transfer that begins in state `s`. -/
def Transfer.outs (t : Transfer) (s : Ep0) : List Out := (inTokens t.tokens (ep0IntHndlr t.req s)).2

/-- The state a transfer ends in. -/
def Transfer.finish (s : Ep0) (t : Transfer) : Ep0 :=
  let s1 := (inTokens t.tokens (ep0IntHndlr t.req s)).1
  match t.ending with
  | .setup => s1
  | .reset speed => usbReset speed s1

/-- A run of transfers. -/
def run (s : Ep0) (ts : List Transfer) : Ep0 := ts.foldl Transfer.finish s

/-! ## What the host receives -/

/-- The bytes of a packet; `beyond` is what memory holds behind an object. -/
def Out.bytes (beyond : Src → ℕ → Byte) (s : Ep0) : Out → List Byte
  | .packet src off num => (List.range num).map fun i =>
    if off + i < (storage s src).length then byteAt (storage s src) (off + i)
    else beyond src (off + i)
  | _ => []

/-- The end of what `s3c_usb_write_ep0_fifo` reads for a packet: whole words. -/
def Out.Inside (s : Ep0) : Out → Prop
  | .packet src off num => off + 4 * ((num + 3) / 4) ≤ (storage s src).length
  | _ => True

/-- The data stage as the host sees it: the bytes received and whether it is over. It
    ends with a short packet or with the last byte asked for. -/
def hostStep (wLength mps : ℕ) (bytes : Out → List Byte) (st : List Byte × Bool) (o : Out) :
    List Byte × Bool :=
  if st.2 || o = .nak then st
  else
    let data := st.1 ++ bytes o
    (data, decide (wLength ≤ data.length ∨ (bytes o).length < mps))

/-- The data stage after the packets `os`. -/
def dataStage (wLength mps : ℕ) (bytes : Out → List Byte) (os : List Out) : List Byte × Bool :=
  os.foldl (hostStep wLength mps bytes) ([], false)

/-- The object a GET_DESCRIPTOR request asks for, if the driver decodes it. -/
def requested (speed : Speed) (r : DeviceReq) : Option Src :=
  if r.bRequest ≠ 6 then none
  else match r.wValueH.toNat with
    | 1 => some .dev
    | 2 => some .config
    | 3 => match r.wValueL.toNat with
      | 0 => some .stringDesc0
      | 1 => some .stringDesc1
      | 2 => some .stringDesc2
      | _ => none
    | 5 => match r.wValueL.toNat % 16 with
      | 0 => some .ep1
      | 1 => some .ep2
      | _ => none
    | 6 => some .qualifierDesc
    | 7 => match speed with
      | .high => some .configFullTotal
      | .full => some .configHighTotal
    | _ => none

end SmartQ.Usb.Control
