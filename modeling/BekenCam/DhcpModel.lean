import BekenCam.ByteBuffer

/-!
# The DHCP server

The lease table and the task that answers messages. The network stack hands over one datagram at a
time, no longer than the request buffer, and a reply is the datagram that is sent for it. The
address of the interface does not change while the server runs.
-/
namespace BekenCam.Dhcp

def poolSize : ℕ := 4
def leaseSeconds : UInt32 := 3600
def bootpFixedLen : ℕ := 236
def optionsOffset : ℕ := 240
def replyLen : ℕ := 300
def requestLen : ℕ := replyLen * 2

def msgDiscover : UInt8 := 1
def msgOffer : UInt8 := 2
def msgRequest : UInt8 := 3
def msgAck : UInt8 := 5
def msgNak : UInt8 := 6
def msgRelease : UInt8 := 7

/-! ## The lease table -/

structure Lease where
  used : Bool
  mac : Octets 6
  seen : UInt32

structure Leases where
  slot : Fin poolSize → Lease
  clock : UInt32

namespace Leases

def clear : Leases := ⟨fun _ => ⟨false, .zero 6, 0⟩, 0⟩

def assign (t : Leases) (slot : Fin poolSize) (mac : Octets 6) : Leases where
  slot := Function.update t.slot slot ⟨true, mac, t.clock + 1⟩
  clock := t.clock + 1

/-- `seen = ++clock`. -/
def refresh (t : Leases) (slot : Fin poolSize) : Leases where
  slot := Function.update t.slot slot { t.slot slot with seen := t.clock + 1 }
  clock := t.clock + 1

/-- The slot this client holds, if it holds one. -/
def find (t : Leases) (mac : Octets 6) : Option (Fin poolSize) × Leases :=
  match (List.finRange poolSize).find? fun i => (t.slot i).used && (t.slot i).mac == mac with
  | some slot => (some slot, t.refresh slot)
  | none => (none, t)

/-- The loop of `dhcp_leases_take` over the slots that are left. -/
def takeLoop (t : Leases) (mac : Octets 6) :
    List (Fin poolSize) → Fin poolSize → Fin poolSize × Leases
  | [], oldest => (oldest, t.assign oldest mac)
  | i :: slots, oldest =>
    if !(t.slot i).used then (i, t.assign i mac)
    else t.takeLoop mac slots (if (t.slot i).seen < (t.slot oldest).seen then i else oldest)

def take (t : Leases) (mac : Octets 6) : Fin poolSize × Leases :=
  match t.find mac with
  | (some slot, t) => (slot, t)
  | (none, t) => t.takeLoop mac (List.finRange poolSize) ⟨0, by decide⟩

/-- The slot with that number, if it is free. -/
def claim (t : Leases) (wanted : ℕ) (mac : Octets 6) : Option (Fin poolSize × Leases) :=
  if h : wanted < poolSize then
    if (t.slot ⟨wanted, h⟩).used then none else some (⟨wanted, h⟩, t.assign ⟨wanted, h⟩ mac)
  else none

def release (t : Leases) : Option (Fin poolSize) → Leases
  | none => t
  | some slot =>
    { t with slot := Function.update t.slot slot { t.slot slot with used := false } }

end Leases

/-! ## Messages -/

def get32 (p : List UInt8) : UInt32 :=
  ((p.getD 0 0).toUInt32 <<< 24) ||| ((p.getD 1 0).toUInt32 <<< 16) |||
    ((p.getD 2 0).toUInt32 <<< 8) ||| (p.getD 3 0).toUInt32

def put32 (v : UInt32) : List UInt8 :=
  [(v >>> 24).toUInt8, (v >>> 16).toUInt8, (v >>> 8).toUInt8, v.toUInt8]

def putOption (code : UInt8) (data : List UInt8) : List UInt8 :=
  code :: UInt8.ofNat data.length :: data

def putOption32 (code : UInt8) (v : UInt32) : List UInt8 := putOption code (put32 v)

/-- The address and the netmask, in host byte order. -/
structure Netif where
  addr : UInt32
  netmask : UInt32

def slotAddr (netif : Netif) (slot : Fin poolSize) : UInt32 :=
  netif.addr + 1 + UInt32.ofNat slot

/-- The options of a reply, up to the end mark. -/
def replyOptions (netif : Netif) (type : UInt8) : List UInt8 :=
  putOption 53 [type] ++ putOption32 54 netif.addr ++
    (if type ≠ msgNak then
      putOption32 51 leaseSeconds ++ putOption32 1 netif.netmask ++ putOption32 3 netif.addr ++
        putOption32 6 netif.addr
    else []) ++ [255]

/-- The fixed part of the reply to the message `req`, and the magic cookie. -/
def replyHeader (netif : Netif) (req : List UInt8) (yiaddr : UInt32) : List UInt8 :=
  let m := List.replicate replyLen 0
  let m := writeAt m 0 [2, 1, 6]
  let m := writeAt m 4 (slice req 4 4)
  let m := writeAt m 10 (slice req 10 2)
  let m := writeAt m 16 (put32 yiaddr)
  let m := writeAt m 20 (put32 netif.addr)
  let m := writeAt m 28 (slice req 28 16)
  writeAt m bootpFixedLen [0x63, 0x82, 0x53, 0x63]

def reply (netif : Netif) (req : List UInt8) (type : UInt8) (yiaddr : UInt32) : List UInt8 :=
  let options := replyOptions netif type
  (writeAt (replyHeader netif req yiaddr) optionsOffset options).take
    (optionsOffset + options.length)

/-- What `on_message` keeps of the options. -/
structure Options where
  type : UInt8
  requested : UInt32

/-- The walk over the options from the position `i` on. Every round moves on by a byte at least, so
`fuel` bytes are enough. -/
def walkOptions (req : List UInt8) : (fuel i : ℕ) → Options → Option Options
  | 0, _, options => some options
  | fuel + 1, i, options =>
    if req.length ≤ i then some options
    else
      let code := req.getD i 0
      if code = 255 then some options
      else if code = 0 then walkOptions req fuel (i + 1) options
      else if req.length < i + 2 then none
      else
        let n := (req.getD (i + 1) 0).toNat
        if req.length < i + 2 + n then none
        else
          let options :=
            if code = 53 ∧ n = 1 then { options with type := req.getD (i + 2) 0 } else options
          let options :=
            if code = 50 ∧ n = 4 then { options with requested := get32 (req.drop (i + 2)) }
            else options
          walkOptions req fuel (i + 2 + n) options

/-- A datagram that starts with a whole header and the first option. -/
structure Request where
  bytes : List UInt8
  whole : optionsOffset + 3 ≤ bytes.length

namespace Request

def options (req : Request) : Option Options :=
  walkOptions req.bytes req.bytes.length optionsOffset ⟨0, 0⟩

def mac (req : Request) : Octets 6 :=
  ⟨slice req.bytes 28 6, length_slice_of_le (le_trans (by decide) req.whole)⟩

/-- The address asked for is in option 50, or else in ciaddr. -/
def requested (req : Request) (options : Options) : UInt32 :=
  if options.requested = 0 then get32 (req.bytes.drop 12) else options.requested

end Request

/-- A client that holds nothing gets the address it asks for, if that is ours and free. -/
def claimRequested (netif : Netif) (requested : UInt32) (mac : Octets 6) :
    Option (Fin poolSize) × Leases → Option (Fin poolSize) × Leases
  | (some slot, t) => (some slot, t)
  | (none, t) =>
    let server := netif.addr
    if server < requested ∧ requested ≤ server + UInt32.ofNat poolSize then
      match t.claim (requested - server - 1).toNat mac with
      | some (slot, t) => (some slot, t)
      | none => (none, t)
    else (none, t)

/-- The table after a message, and the reply, if there is one. -/
def onMessage (netif : Netif) (t : Leases) (req : Request) : Leases × Option (List UInt8) :=
  match req.options with
  | none => (t, none)
  | some options =>
    let (slot, t) := t.find req.mac
    if options.type = msgDiscover then
      let (slot, t) :=
        match slot with
        | some slot => (slot, t)
        | none => t.take req.mac
      (t, some (reply netif req.bytes msgOffer (slotAddr netif slot)))
    else if options.type = msgRequest then
      let requested := req.requested options
      let (slot, t) := claimRequested netif requested req.mac (slot, t)
      if slot.any fun slot => requested == slotAddr netif slot then
        (t, some (reply netif req.bytes msgAck requested))
      else (t, some (reply netif req.bytes msgNak 0))
    else if options.type = msgRelease then (t.release slot, none)
    else (t, none)

/-- What `lwip_recvfrom` puts into the request buffer. -/
abbrev Packet := { bytes : List UInt8 // bytes.length ≤ requestLen }

/-- BOOTREQUEST with the DHCP magic cookie. -/
def request (packet : Packet) : Option Request :=
  if h : optionsOffset + 3 ≤ packet.val.length then
    if packet.val.getD 0 0 = 1 ∧ slice packet.val bootpFixedLen 4 = [0x63, 0x82, 0x53, 0x63] then
      some ⟨packet.val, h⟩
    else none
  else none

/-- One round of `dhcp_server_task` that received something. -/
def receive (netif : Netif) (t : Leases) (packet : Packet) : Leases × Option (List UInt8) :=
  match request packet with
  | none => (t, none)
  | some req => onMessage netif t req

/-- The table after these packets. -/
def leasesAfter (netif : Netif) (received : List Packet) : Leases :=
  received.foldl (fun t packet => (receive netif t packet).1) .clear

end BekenCam.Dhcp
