import Mathlib.Tactic

/-!
# The Telnet grammar

A byte stream after RFC 854: data, and commands that the byte `IAC` introduces. `IAC` as data is
doubled, the four option commands have one more byte, and a subnegotiation runs up to `IAC SE`.
-/
namespace BekenCam.Telnet

def iac : UInt8 := 255
def dont : UInt8 := 254
def do_ : UInt8 := 253
def wont : UInt8 := 252
def will : UInt8 := 251
def sb : UInt8 := 250
def se : UInt8 := 240

inductive Event
  | data (byte : UInt8)
  | option (command option : UInt8)
  | command (byte : UInt8)
  | subnegotiation
  deriving DecidableEq

inductive DecodeState
  | data
  | iac
  | option (command : UInt8)
  | subnegotiation
  | subnegotiationIac
  deriving DecidableEq

def decodeByte (b : UInt8) : DecodeState → DecodeState × List Event
  | .data => if b = iac then (.iac, []) else (.data, [.data b])
  | .iac =>
    if b = iac then (.data, [.data iac])
    else if will ≤ b ∧ b ≤ dont then (.option b, [])
    else if b = sb then (.subnegotiation, [])
    else (.data, [.command b])
  | .option command => (.data, [.option command b])
  | .subnegotiation => (if b = iac then .subnegotiationIac else .subnegotiation, [])
  | .subnegotiationIac => if b = se then (.data, [.subnegotiation]) else (.subnegotiation, [])

/-- The state after the bytes, and what they say. -/
def decode : DecodeState → List UInt8 → DecodeState × List Event
  | st, [] => (st, [])
  | st, b :: bytes =>
    let (st, events) := decodeByte b st
    let (st, rest) := decode st bytes
    (st, events ++ rest)

theorem decode_append (st : DecodeState) (a b : List UInt8) :
    decode st (a ++ b) =
      ((decode (decode st a).1 b).1, (decode st a).2 ++ (decode (decode st a).1 b).2) := by
  induction a generalizing st with
  | nil => rfl
  | cons x a ih => simp only [List.cons_append, decode, ih, List.append_assoc]

/-- The data bytes. -/
def dataBytes (events : List Event) : List UInt8 :=
  events.filterMap fun
    | .data byte => some byte
    | _ => none

/-- Everything else. -/
def commands (events : List Event) : List Event :=
  events.filter fun
    | .data _ => false
    | _ => true

@[simp] theorem dataBytes_nil : dataBytes [] = [] := rfl
@[simp] theorem commands_nil : commands [] = [] := rfl

@[simp] theorem dataBytes_append (a b : List Event) :
    dataBytes (a ++ b) = dataBytes a ++ dataBytes b :=
  List.filterMap_append

@[simp] theorem commands_append (a b : List Event) : commands (a ++ b) = commands a ++ commands b :=
  List.filter_append ..

@[simp] theorem dataBytes_map_data (bytes : List UInt8) : dataBytes (bytes.map .data) = bytes := by
  rw [dataBytes, List.filterMap_map]
  exact List.filterMap_some

@[simp] theorem commands_map_data (bytes : List UInt8) : commands (bytes.map .data) = [] := by
  simp [commands]

/-- `IAC` doubled. -/
def escape (raw : List UInt8) : List UInt8 :=
  raw.flatMap fun b => if b = iac then [b, iac] else [b]

theorem decode_escape (raw : List UInt8) : decode .data (escape raw) = (.data, raw.map .data) := by
  induction raw with
  | nil => rfl
  | cons b raw ih =>
    have hcons : escape (b :: raw) = (if b = iac then [b, iac] else [b]) ++ escape raw := rfl
    have hone : decode .data (if b = iac then [b, iac] else [b]) = (.data, [.data b]) := by
      split_ifs with hb
      · rw [hb]
        rfl
      · simp [decode, decodeByte, hb]
    rw [hcons, decode_append, hone, ih]
    rfl

end BekenCam.Telnet
