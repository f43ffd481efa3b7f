import BekenCam.Wpa2Handshake
import BekenCam.Wpa2Sta

/-!
# The keys in the LMAC

The task remembers two slots, and these two hold all the keys there are: whatever frames come in,
whatever the LMAC refuses and in whatever order the session arms, disarms and aborts. A key of
one kind is never put into the slot of a key of the other kind, and a deleted slot is free.
-/
namespace BekenCam.Wpa2

open Prog

abbrev StaEvent := Σ c : StaCmd, c.Answer

/-! ## The LMAC -/

/-- A key, with the request it came with. -/
structure LmacKey where
  hwKeyIdx : HwKeyIdx
  keyIdx : UInt8
  key : Octets 16
  deriving DecidableEq

abbrev LmacKeys := UInt8 → Option LmacKey

/-- A slot that an `MM_KEY_ADD` may return. -/
structure Grants (keys : LmacKeys) (hwKeyIdx : HwKeyIdx) (slot : UInt8) : Prop where
  valid : slot ≠ noSlot
  own : ∀ k, keys slot = some k → k.hwKeyIdx = hwKeyIdx

/-- `MM_KEY_ADD` puts the key in the returned slot or does nothing, and `MM_KEY_DEL` frees the
slot. The station interface is there. -/
def lmac : Device StaCmd StaCmd.Answer LmacKeys
  | .mmKeyAdd hwKeyIdx _ _ keyIdx key, keys, (added : Option UInt8), keys' =>
    match added with
    | none => keys' = keys
    | some slot => Grants keys hwKeyIdx slot ∧
        keys' = Function.update keys slot (some ⟨hwKeyIdx, keyIdx, key⟩)
  | .mmKeyDel slot, keys, _, keys' => keys' = Function.update keys slot none
  | .wifiNetIface, keys, (iface : Option (Octets 6)), keys' => iface ≠ none ∧ keys' = keys
  | _, keys, _, keys' => keys' = keys

/-- The keys of the two slots. -/
def installed (sm : Wpa2Sm) (st : Sta) : LmacKeys := fun slot =>
  if slot = noSlot then none
  else if slot = st.ptkSlot then some ⟨.sPtkSlot, 0, tk sm.ptk⟩
  else if slot = st.gtkSlot then some ⟨.slot, sm.gtkId, sm.gtk⟩
  else none

/-- The LMAC holds the keys of the two slots and no other. -/
structure Accounts (sm : Wpa2Sm) (st : Sta) (keys : LmacKeys) : Prop where
  keys_eq : keys = installed sm st
  ptk : st.ptkSlot ≠ noSlot → sm.ptkInstalled = true
  apart : st.ptkSlot ≠ noSlot → st.ptkSlot ≠ st.gtkSlot

theorem accounts_empty (sm : Wpa2Sm) {st : Sta} (hptk : st.ptkSlot = noSlot)
    (hgtk : st.gtkSlot = noSlot) : Accounts sm st (fun _ => none) := by
  refine ⟨?_, fun hslot => absurd hptk hslot, fun hslot => absurd hptk hslot⟩
  funext slot
  unfold installed
  rw [hptk, hgtk]
  split_ifs <;> rfl

/-- Only the slots differ. -/
def SameTask (st st' : Sta) : Prop :=
  st' = { st with ptkSlot := st'.ptkSlot, gtkSlot := st'.gtkSlot }

/-! ## Requests -/

section Requests

variable {keys keys' : LmacKeys} {es : List StaEvent}

theorem run_mmKeyAdd {hwKeyIdx : HwKeyIdx} {vif sta keyIdx : UInt8} {key : Octets 16}
    {added : Option UInt8} (hrun : Performs (rwMsgSendMmKeyAdd hwKeyIdx vif sta keyIdx key) es added)
    (hsteps : Steps lmac keys es keys') : (added = none ∧ keys' = keys) ∨
      ∃ slot, added = some slot ∧ Grants keys hwKeyIdx slot ∧
        keys' = Function.update keys slot (some ⟨hwKeyIdx, keyIdx, key⟩) := by
  unfold rwMsgSendMmKeyAdd at hrun
  split_ifs at hrun
  · obtain ⟨rfl, rfl⟩ := performs_ret hrun
    exact .inl ⟨rfl, hsteps⟩
  · obtain ⟨r, fs, rfl, hret⟩ := performs_call hrun
    obtain ⟨rfl, rfl⟩ := performs_ret hret
    obtain ⟨_, hdev, rfl⟩ := hsteps
    cases added with
    | none => exact .inl ⟨rfl, hdev⟩
    | some slot => exact .inr ⟨slot, rfl, hdev⟩

theorem run_delKeyIf {c : Prop} [Decidable c] {slot : UInt8} {ok : Bool}
    (hrun : Performs (delKeyIf c slot) es ok)
    (hsteps : Steps lmac keys es keys') :
    keys' = if c then Function.update keys slot none else keys := by
  unfold delKeyIf at hrun
  split_ifs at hrun ⊢
  · obtain ⟨r, fs, rfl, hret⟩ := performs_call hrun
    obtain ⟨rfl, -⟩ := performs_ret hret
    obtain ⟨_, hdev, rfl⟩ := hsteps
    exact hdev
  · obtain ⟨rfl, -⟩ := performs_ret hrun
    exact hsteps

theorem run_dropKeys {sm : Wpa2Sm} {st st' : Sta} (h : Accounts sm st keys)
    (hrun : Performs (dropKeys st) es st') (hsteps : Steps lmac keys es keys') :
    keys' = (fun _ => none) ∧ st' = { st with ptkSlot := noSlot, gtkSlot := noSlot } := by
  unfold dropKeys at hrun
  obtain ⟨_, fs, gs, rfl, hptk, hrest⟩ := performs_bind hrun
  obtain ⟨_, gs, hs, rfl, hgtk, hret⟩ := performs_bind hrest
  obtain ⟨rfl, rfl⟩ := performs_ret hret
  rw [List.append_nil] at hsteps
  obtain ⟨keys₁, hfirst, hsecond⟩ := steps_append.mp hsteps
  rw [run_delKeyIf hgtk hsecond, run_delKeyIf hptk hfirst, h.keys_eq]
  refine ⟨funext fun slot => ?_, rfl⟩
  split_ifs <;> simp only [Function.update_apply, installed] <;> split_ifs <;> simp_all

end Requests

/-! ## Ops -/

def StaCmd.isKeyless : StaCmd → Bool
  | mmKeyAdd _ _ _ _ _ | mmKeyDel _ => false
  | _ => true

theorem lmac_of_isKeyless (c : StaCmd) (h : c.isKeyless = true) (keys : LmacKeys) (r : c.Answer)
    (keys' : LmacKeys) (hdev : lmac c keys r keys') : keys' = keys := by
  cases c with
  | mmKeyAdd | mmKeyDel => simp [StaCmd.isKeyless] at h
  | wifiNetIface => exact hdev.2
  | _ => exact hdev

theorem run_keyless {α : Type} {m : StaM α} {a : α} {es : List StaEvent} {keys keys' : LmacKeys}
    (hm : Only (fun c => c.isKeyless = true) m) (hrun : Performs m es a)
    (hsteps : Steps lmac keys es keys') : keys' = keys :=
  steps_unchanged lmac_of_isKeyless (mem_of_only hm hrun) hsteps

theorem keyless_opSend (st : Sta) (eapol : List UInt8) :
    Only (fun c => c.isKeyless = true) (opSend st eapol) :=
  only_ite (only_pure _) ⟨rfl, fun _ => trivial⟩

section Move

variable {sm sm' : Wpa2Sm} {st st' : Sta} {keys keys' : LmacKeys} {es : List StaEvent}

/-- The state machine moves and the slots stay. -/
theorem Accounts.congr (h : Accounts sm st keys)
    (hptk : sm.ptkInstalled = true → sm'.ptkInstalled = true ∧ sm'.ptk = sm.ptk)
    (hid : sm'.gtkId = sm.gtkId) (hgtk : sm'.gtk = sm.gtk) : Accounts sm' st keys := by
  refine ⟨?_, fun hslot => (hptk (h.ptk hslot)).1, h.apart⟩
  rw [h.keys_eq]
  funext slot
  unfold installed
  split_ifs with hno hslot
  · rfl
  · rw [(hptk (h.ptk (hslot ▸ hno))).2]
  · rw [hid, hgtk]
  · rfl

/-- The pairwise key comes first, into a slot of its own. -/
theorem Accounts.installPtk {ok : Bool} (h : Accounts sm st keys)
    (hfree : sm.ptkInstalled = false)
    (hrun : Performs (opInstallPtk st (tk sm.ptk)) es (ok, st'))
    (hsteps : Steps lmac keys es keys') :
    Accounts (if ok then { sm with ptkInstalled := true } else sm) st' keys' ∧
      SameTask st st' := by
  have hnone : st.ptkSlot = noSlot := by
    by_contra hslot
    simp [h.ptk hslot] at hfree
  obtain ⟨ap, fs, gs, rfl, hap, hrest⟩ := performs_bind hrun
  obtain ⟨added, gs, hs, rfl, hadd, hret⟩ := performs_bind hrest
  obtain ⟨keys₁, hfirst, hsecond⟩ := steps_append.mp hsteps
  obtain rfl := run_keyless (m := apIndex st) ⟨rfl, fun _ => trivial⟩ hap hfirst
  obtain ⟨keys₂, hadds, hlast⟩ := steps_append.mp hsecond
  rcases run_mmKeyAdd hadd hadds with ⟨rfl, rfl⟩ | ⟨slot, rfl, hgrants, rfl⟩
  · obtain ⟨rfl, heq⟩ := performs_ret hret
    obtain ⟨rfl, rfl⟩ := Prod.mk.inj heq
    obtain rfl := hlast
    exact ⟨h, rfl⟩
  · obtain ⟨rfl, heq⟩ := performs_ret hret
    obtain ⟨rfl, rfl⟩ := Prod.mk.inj heq
    obtain rfl := hlast
    have hapart : slot ≠ st.gtkSlot := by
      rintro rfl
      have hother := hgrants.own ⟨.slot, sm.gtkId, sm.gtk⟩
      rw [h.keys_eq, installed, if_neg hgrants.valid, if_neg (hnone ▸ hgrants.valid),
        if_pos rfl] at hother
      simp at hother
    refine ⟨⟨?_, fun _ => rfl, fun _ => hapart⟩, rfl⟩
    funext other
    rw [h.keys_eq, Function.update_apply]
    unfold installed
    have hvalid := hgrants.valid
    split_ifs <;> simp_all

/-- A group key takes a new slot, or the one of the key it replaces. -/
theorem Accounts.installGtk {id : UInt8} {gtk : Octets 16} {ok : Bool} (h : Accounts sm st keys)
    (hrun : Performs (opInstallGtk st id gtk) es (ok, st')) (hsteps : Steps lmac keys es keys') :
    Accounts (if ok then { sm with gtk := gtk, gtkId := id, gtkInstalled := true } else sm) st'
      keys' ∧ SameTask st st' := by
  obtain ⟨added, fs, gs, rfl, hadd, hrest⟩ := performs_bind hrun
  obtain ⟨keys₁, hadds, hdels⟩ := steps_append.mp hsteps
  rcases run_mmKeyAdd hadd hadds with ⟨rfl, rfl⟩ | ⟨slot, rfl, hgrants, rfl⟩
  · obtain ⟨rfl, heq⟩ := performs_ret hrest
    obtain ⟨rfl, rfl⟩ := Prod.mk.inj heq
    obtain rfl := hdels
    exact ⟨h, rfl⟩
  · obtain ⟨_, hdel, heq⟩ := performs_bind_pure hrest
    obtain ⟨rfl, rfl⟩ := Prod.mk.inj heq
    have hvalid := hgrants.valid
    have hapart : st.ptkSlot ≠ slot := by
      rintro rfl
      have hother := hgrants.own ⟨.sPtkSlot, 0, tk sm.ptk⟩
      rw [h.keys_eq, installed, if_neg hvalid, if_pos rfl] at hother
      simp at hother
    refine ⟨⟨?_, h.ptk, fun _ => hapart⟩, rfl⟩
    rw [run_delKeyIf hdel hdels, h.keys_eq]
    funext other
    have hslots := h.apart
    unfold installed
    split_ifs <;> simp only [Function.update_apply] <;> split_ifs <;> simp_all

/-- An op that leaves the keys alone leaves the task alone too. -/
theorem unchanged_of_keyless {α : Type} {m : StaM α} {r : α}
    (hm : Only (fun c => c.isKeyless = true) m)
    (hrun : Performs (m >>= fun r => pure (r, st)) es (r, st')) (hsteps : Steps lmac keys es keys') :
    st' = st ∧ keys' = keys := by
  obtain ⟨r', hperf, heq⟩ := performs_bind_pure hrun
  exact ⟨(Prod.mk.inj heq).2, run_keyless hm hperf hsteps⟩

/-- One move of the state machine, with its op carried out. -/
theorem Accounts.move {e : Event} (h : Accounts sm st keys) (hmove : Move sm e sm')
    (hrun : Performs (kOps e.1 st) es (e.2, st')) (hsteps : Steps lmac keys es keys') :
    Accounts sm' st' keys' ∧ SameTask st st' := by
  cases hmove with
  | draw anonce snonce hfree =>
    have hkeyless : Only (fun c => c.isKeyless = true) (opRandom 32) :=
      ⟨rfl, fun _ => ⟨rfl, fun _ => trivial⟩⟩
    obtain ⟨rfl, rfl⟩ := unchanged_of_keyless hkeyless hrun hsteps
    refine ⟨h.congr (fun hptk => ?_) rfl rfl, rfl⟩
    simp [hfree] at hptk
  | answer replay sent hfree =>
    obtain ⟨rfl, rfl⟩ := unchanged_of_keyless (keyless_opSend st _) hrun hsteps
    refine ⟨h.congr (fun hptk => ?_) ?_ ?_, rfl⟩
    · simp [hfree] at hptk
    · cases sent <;> rfl
    · cases sent <;> rfl
  | confirm keyInfo replay sent hinfo =>
    obtain ⟨rfl, rfl⟩ := unchanged_of_keyless (keyless_opSend st _) hrun hsteps
    exact ⟨h.congr (fun hptk => ⟨hptk, rfl⟩) rfl rfl, rfl⟩
  | installPtk ok hfree _ => exact h.installPtk hfree hrun hsteps
  | installGtk id gtk ok _ => exact h.installGtk hrun hsteps
  | openPort ok =>
    have hkeyless : Only (fun c => c.isKeyless = true) (opOpenPort st) :=
      ⟨rfl, fun _ => ⟨rfl, fun _ => trivial⟩⟩
    obtain ⟨rfl, rfl⟩ := unchanged_of_keyless hkeyless hrun hsteps
    refine ⟨h.congr (fun hptk => ?_) ?_ ?_, rfl⟩ <;> cases ok <;> first | exact ⟨hptk, rfl⟩ | rfl

/-- All the moves of a frame. -/
theorem Accounts.moves {cs : List Event} (h : Accounts sm st keys) (hmoves : Moves sm cs sm')
    (hops : Interpreted kOps st cs es st') (hsteps : Steps lmac keys es keys') :
    Accounts sm' st' keys' ∧ SameTask st st' := by
  induction hmoves generalizing st keys es with
  | nil =>
    cases hops
    obtain rfl := hsteps
    exact ⟨h, rfl⟩
  | cons hfirst _ ih =>
    cases hops with
    | cons hop hrest =>
      obtain ⟨keys₁, hs₁, hs₂⟩ := steps_append.mp hsteps
      obtain ⟨h₁, hsame₁⟩ := h.move hfirst hop hs₁
      obtain ⟨h₂, hsame₂⟩ := ih h₁ hrest hs₂
      refine ⟨h₂, ?_⟩
      unfold SameTask at hsame₁ hsame₂ ⊢
      rw [hsame₂, hsame₁]

end Move

/-! ## Messages -/

def isVerdict (e : StaEvent) : Bool := decide (e.1 = .wpa2ResultHandler true)

def Msg.isArm : Msg → Bool
  | arm _ _ _ => true
  | _ => false

/-- The messages so far with what each made the task do, the newest first. -/
abbrev StaLog := List (Msg × List StaEvent)

/-- `wpa2_result_handler(true)` since the last arm. -/
def verdicts : StaLog → ℕ
  | [] => 0
  | (m, es) :: log => es.countP isVerdict + if m.isArm then 0 else verdicts log

/-- The task handles messages from its start on, against a LMAC without keys. -/
inductive Handled : StaLog → Sta → LmacKeys → Prop
  | start : Handled [] .start (fun _ => none)
  | message {log : StaLog} {st st' : Sta} {keys keys' : LmacKeys} {m : Msg} {es : List StaEvent}
      (hbefore : Handled log st keys) (hrun : Performs (handle st m) es st')
      (hsteps : Steps lmac keys es keys') : Handled ((m, es) :: log) st' keys'

structure StaInv (log : StaLog) (st : Sta) (keys : LmacKeys) : Prop where
  accounts : Accounts st.sm st keys
  history : ∃ es, History es st.sm
  verdict : verdicts log ≤ 1
  decided : verdicts log = 1 → st.pending = false ∧
    (st.active = true → st.sm.state = .established)

theorem staInv_start : StaInv [] .start (fun _ => none) where
  accounts := accounts_empty _ rfl rfl
  history := ⟨[], history_init _ _ _⟩
  verdict := Nat.zero_le 1
  decided h := by simp [verdicts] at h

section Message

variable {log : StaLog} {st st' : Sta} {keys keys' : LmacKeys} {es : List StaEvent}

theorem run_fail (hrun : Performs (fail st) es st') (hsteps : Steps lmac keys es keys') :
    keys' = keys ∧ es.countP isVerdict = 0 ∧ st' = { st with active := false, pending := false } := by
  obtain ⟨left, fs, rfl, hrest⟩ := performs_call hrun
  obtain ⟨_, gs, rfl, hret⟩ := performs_call hrest
  obtain ⟨rfl, rfl⟩ := performs_ret hret
  obtain ⟨_, rfl, _, rfl, rfl⟩ := hsteps
  exact ⟨rfl, rfl, rfl⟩

theorem no_verdict_mmKeyAdd (hwKeyIdx : HwKeyIdx) (vif sta keyIdx : UInt8) (key : Octets 16) :
    Only (fun c => c ≠ .wpa2ResultHandler true)
      (rwMsgSendMmKeyAdd hwKeyIdx vif sta keyIdx key) :=
  only_ite (only_pure _) ⟨nofun, fun _ => trivial⟩

theorem no_verdict_delKeyIf (c : Prop) [Decidable c] (slot : UInt8) :
    Only (fun c => c ≠ .wpa2ResultHandler true) (delKeyIf c slot) :=
  only_ite ⟨nofun, fun _ => trivial⟩ (only_pure _)

/-- Nothing that the ops ask for is a verdict. -/
theorem no_verdict_kOps (op : Op) (st : Sta) :
    Only (fun c => c ≠ .wpa2ResultHandler true) (kOps op st) := by
  cases op with
  | send eapol =>
    refine only_bind (only_ite (only_pure _) ⟨nofun, fun _ => trivial⟩) fun _ => only_pure _
  | installPtk tk =>
    refine only_bind (m := apIndex st) ⟨nofun, fun _ => trivial⟩ fun ap =>
      only_bind (no_verdict_mmKeyAdd _ _ _ _ _) ?_
    rintro (_ | slot) <;> exact only_pure _
  | installGtk keyId gtk =>
    refine only_bind (no_verdict_mmKeyAdd _ _ _ _ _) ?_
    rintro (_ | slot)
    · exact only_pure _
    · exact only_bind (no_verdict_delKeyIf _ _) fun _ => only_pure _
  | openPort => exact ⟨nofun, fun _ => ⟨nofun, fun _ => trivial⟩⟩
  | random len => exact ⟨nofun, fun _ => ⟨nofun, fun _ => trivial⟩⟩

theorem countP_of_no_verdict (h : ∀ e ∈ es, e.1 ≠ .wpa2ResultHandler true) :
    es.countP isVerdict = 0 := by
  rw [List.countP_eq_zero]
  intro e he
  simpa [isVerdict] using h e he

theorem no_verdict_dropKeys (st : Sta) :
    Only (fun c => c ≠ .wpa2ResultHandler true) (dropKeys st) :=
  only_bind (no_verdict_delKeyIf _ _) fun _ =>
    only_bind (no_verdict_delKeyIf _ _) fun _ => only_pure _

theorem StaInv.arm {vif : UInt8} {pmk : Octets 32} {bssid : Octets 6} (h : StaInv log st keys)
    (hrun : Performs (handle st (.arm vif pmk bssid)) es st') (hsteps : Steps lmac keys es keys') :
    StaInv ((.arm vif pmk bssid, es) :: log) st' keys' ∧ keys' = fun _ => none := by
  obtain ⟨iface, fs, rfl, hrest⟩ := performs_call hrun
  obtain ⟨_, ⟨hpresent, rfl⟩, hsteps⟩ := hsteps
  cases iface with
  | none => exact absurd rfl hpresent
  | some hwaddr =>
    obtain ⟨dropped, hdrop, rfl⟩ := performs_bind_pure hrest
    obtain ⟨rfl, rfl⟩ := run_dropKeys h.accounts hdrop hsteps
    have hcount := countP_of_no_verdict (mem_of_only (no_verdict_dropKeys st) hdrop)
    have hzero : verdicts ((.arm vif pmk bssid,
        ⟨.wifiNetIface, some hwaddr⟩ :: fs) :: log) = 0 := by
      simp [verdicts, Msg.isArm, hcount, isVerdict]
    exact ⟨⟨accounts_empty _ rfl rfl, ⟨[], history_init pmk bssid hwaddr⟩, by omega, by omega⟩,
      rfl⟩

theorem StaInv.disarm (h : StaInv log st keys) (hrun : Performs (handle st .disarm) es st')
    (hsteps : Steps lmac keys es keys') :
    StaInv ((.disarm, es) :: log) st' keys' ∧ keys' = fun _ => none := by
  have hacc : Accounts st.sm { st with active := false, pending := false } keys :=
    ⟨h.accounts.keys_eq, h.accounts.ptk, h.accounts.apart⟩
  obtain ⟨rfl, rfl⟩ := run_dropKeys hacc hrun hsteps
  have hcount := countP_of_no_verdict (mem_of_only (no_verdict_dropKeys _) hrun)
  have hsame : verdicts ((.disarm, es) :: log) = verdicts log := by
    simp [verdicts, Msg.isArm, hcount]
  refine ⟨⟨accounts_empty _ rfl rfl, h.history, by rw [hsame]; exact h.verdict,
    fun _ => ⟨rfl, fun hactive => ?_⟩⟩, rfl⟩
  simp at hactive

theorem StaInv.abort (h : StaInv log st keys) (hrun : Performs (handle st .abort) es st')
    (hsteps : Steps lmac keys es keys') :
    StaInv ((.abort, es) :: log) st' keys' ∧ (verdicts log = 1 → es = []) := by
  have hcount : ∀ {es : List StaEvent}, es.countP isVerdict = 0 →
      verdicts ((.abort, es) :: log) = verdicts log := by
    intro es hzero
    simp [verdicts, Msg.isArm, hzero]
  simp only [handle] at hrun
  split_ifs at hrun with hboth
  · obtain ⟨rfl, hzero, rfl⟩ := run_fail hrun hsteps
    refine ⟨⟨⟨h.accounts.keys_eq, h.accounts.ptk, h.accounts.apart⟩, h.history,
      by rw [hcount hzero]; exact h.verdict, fun _ => ⟨rfl, fun hactive => ?_⟩⟩, fun hone => ?_⟩
    · simp at hactive
    · simp [(h.decided hone).1] at hboth
  · obtain ⟨rfl, rfl⟩ := performs_ret hrun
    obtain rfl := hsteps
    exact ⟨⟨h.accounts, h.history, by rw [hcount rfl]; exact h.verdict,
      by rw [hcount rfl]; exact h.decided⟩, fun _ => rfl⟩

/-- Once the port is open no frame opens it again. -/
theorem established_of_done {cs gs : List Event} {sm sm' : Wpa2Sm} {frame : List UInt8}
    (hist : History gs sm) (hout : Outcome sm frame cs .done sm') :
    sm.state ≠ .established ∧ sm'.state = .established := by
  have hport := (hist.moves hout.moves).port
  have hmem : (⟨.openPort, true⟩ : Event) ∈ cs := hout.opened
  have hpos : () ∈ portOpenings cs := List.mem_filterMap.mpr ⟨_, hmem, rfl⟩
  have hlen : 0 < (portOpenings cs).length := List.length_pos_of_mem hpos
  have happ : (portOpenings (gs ++ cs)).length =
      (portOpenings gs).length + (portOpenings cs).length := by
    simp [portOpenings]
  rw [happ, hist.port] at hport
  constructor
  · intro hest
    rw [if_pos hest, if_pos (hist.moves_stays hout.moves hest)] at hport
    omega
  · by_contra hnot
    rw [if_neg hnot] at hport
    omega

theorem StaInv.eapol {vif : UInt8} {frame : List UInt8} (h : StaInv log st keys)
    (hrun : Performs (handle st (.eapol vif frame)) es st') (hsteps : Steps lmac keys es keys') :
    StaInv ((.eapol vif frame, es) :: log) st' keys' := by
  have hcount : ∀ es, verdicts ((.eapol vif frame, es) :: log) =
      es.countP isVerdict + verdicts log := fun _ => rfl
  have hsilent : ∀ {st' : Sta}, es = [] → st' = st → keys' = keys →
      StaInv ((.eapol vif frame, es) :: log) st' keys' := by
    rintro _ rfl rfl rfl
    exact ⟨h.accounts, h.history, by rw [hcount]; simpa using h.verdict,
      by rw [hcount]; simpa using h.decided⟩
  simp only [handle] at hrun
  split_ifs at hrun with hclosed hother
  · obtain ⟨rfl, rfl⟩ := performs_ret hrun
    exact hsilent rfl rfl hsteps
  · obtain ⟨rfl, rfl⟩ := performs_ret hrun
    exact hsilent rfl rfl hsteps
  have hactive : st.active = true := by simpa using (not_or.mp hclosed).1
  obtain ⟨⟨⟨r, sm'⟩, st₁⟩, fs, ds, rfl, hrx, hend⟩ := performs_bind hrun
  obtain ⟨cs, hperf, hops⟩ := performs_interpret hrx
  obtain ⟨keys₁, hs₁, hs₂⟩ := steps_append.mp hsteps
  have hout := wpa2SmRx_outcome hperf
  obtain ⟨hacc, hsame⟩ := h.accounts.moves hout.moves hops hs₁
  obtain ⟨gs, hist⟩ := h.history
  have hhist : ∃ es, History es sm' := ⟨gs ++ cs, hist.moves hout.moves⟩
  have hzero := countP_of_no_verdict (Interpreted.mem_of_only no_verdict_kOps hops)
  have hstays := hist.moves_stays hout.moves
  have hactive₁ : st₁.active = true := by rw [hsame]; exact hactive
  have hpending₁ : st₁.pending = st.pending := by rw [hsame]
  have hle := h.verdict
  cases r with
  | done =>
    obtain ⟨hbefore, hafter⟩ := established_of_done hist hout
    have hnone : verdicts log = 0 := by
      by_contra hne
      exact hbefore ((h.decided (by omega)).2 hactive)
    obtain ⟨_, gs, rfl, hret⟩ := performs_call hend
    obtain ⟨rfl, rfl⟩ := performs_ret hret
    obtain ⟨_, rfl, rfl⟩ := hs₂
    have hone : verdicts ((.eapol vif frame, fs ++ [⟨.wpa2ResultHandler true, ()⟩]) :: log) = 1 := by
      rw [hcount, List.countP_append, hzero, hnone]
      rfl
    exact ⟨⟨hacc.keys_eq, hacc.ptk, hacc.apart⟩, hhist, hone.le, fun _ => ⟨rfl, fun _ => hafter⟩⟩
  | failed =>
    obtain ⟨rfl, hfail, rfl⟩ := run_fail hend hs₂
    have hkept : verdicts ((.eapol vif frame, fs ++ ds) :: log) = verdicts log := by
      rw [hcount, List.countP_append, hzero, hfail]
      simp
    refine ⟨⟨hacc.keys_eq, hacc.ptk, hacc.apart⟩, hhist, by rw [hkept]; exact hle,
      fun _ => ⟨rfl, fun hon => ?_⟩⟩
    simp at hon
  | _ =>
    obtain ⟨rfl, rfl⟩ := performs_ret hend
    obtain rfl := hs₂
    have hkept : verdicts ((.eapol vif frame, fs ++ []) :: log) = verdicts log := by
      rw [hcount, List.countP_append, hzero]
      simp
    refine ⟨⟨hacc.keys_eq, hacc.ptk, hacc.apart⟩, hhist, by rw [hkept]; exact hle, fun hone => ?_⟩
    rw [hkept] at hone
    obtain ⟨hdone, hest⟩ := h.decided hone
    exact ⟨hpending₁.trans hdone, fun _ => hstays (hest hactive)⟩

end Message

theorem Handled.inv {log : StaLog} {st : Sta} {keys : LmacKeys} (h : Handled log st keys) :
    StaInv log st keys := by
  induction h with
  | start => exact staInv_start
  | @message _ _ _ _ _ m _ _ hrun hsteps ih =>
    cases m with
    | arm vif pmk bssid => exact (ih.arm hrun hsteps).1
    | eapol vif frame => exact ih.eapol hrun hsteps
    | disarm => exact (ih.disarm hrun hsteps).1
    | abort => exact (ih.abort hrun hsteps).1

/-! ## An association -/

/-- A LMAC that grants everything, the pairwise key slot 1 and a group key slot 2. -/
def granting : Handler StaCmd StaCmd.Answer Unit
  | .wifiNetIface, s => (some (Octets.zero 6), s)
  | .apId _, s => (0, s)
  | .wifiNetSendRaw _ _, s => (true, s)
  | .mmKeyAdd .sPtkSlot _ _ _ _, s => (some 1, s)
  | .mmKeyAdd .slot _ _ _ _, s => (some 2, s)
  | .mmKeyDel _, s => (true, s)
  | .meSetControlPort _ _, s => (true, s)
  | .trngEnable, s => ((), s)
  | .getRandomBytes len, s => (Octets.zero len, s)
  | .connectLeave _, s => (true, s)
  | .wpa2ResultHandler _, s => ((), s)

section Association

variable (st : Sta)

theorem performs_send {eapol : List UInt8} (hlen : eapol.length ≤ wpa2EapolMax) :
    Performs (kOps (.send eapol) st)
      [⟨.wifiNetSendRaw st.vif (st.aa.val ++ st.own.val ++ [0x88, 0x8E] ++ eapol), true⟩]
      (true, st) := by
  have hsend : opSend st eapol =
      wifiNetSendRaw st.vif (st.aa.val ++ st.own.val ++ [0x88, 0x8E] ++ eapol) :=
    if_neg (Nat.not_lt.mpr hlen)
  simp only [kOps, hsend]
  exact performs_events granting _ ()

theorem performs_installPtk (hvif : st.vif = 0) (key : Octets 16) :
    Performs (kOps (.installPtk key) st)
      [⟨.apId 0, (0 : UInt8)⟩, ⟨.mmKeyAdd .sPtkSlot 0 0 0 key, some 1⟩]
      (true, { st with ptkSlot := 1 }) := by
  obtain ⟨sm, active, pending, vif, aa, own, ptkSlot, gtkSlot⟩ := st
  obtain rfl : vif = 0 := hvif
  exact performs_events granting _ ()

theorem performs_installGtk (hvif : st.vif = 0) (hslot : st.gtkSlot = noSlot) (key : Octets 16) :
    Performs (kOps (.installGtk 1 key) st) [⟨.mmKeyAdd .slot 0 0xFF 1 key, some 2⟩]
      (true, { st with gtkSlot := 2 }) := by
  obtain ⟨sm, active, pending, vif, aa, own, ptkSlot, gtkSlot⟩ := st
  obtain rfl : vif = 0 := hvif
  obtain rfl : gtkSlot = noSlot := hslot
  exact performs_events granting _ ()

theorem performs_openPort (hvif : st.vif = 0) :
    Performs (kOps .openPort st) [⟨.apId 0, (0 : UInt8)⟩, ⟨.meSetControlPort 0 true, true⟩]
      (true, st) := by
  obtain ⟨sm, active, pending, vif, aa, own, ptkSlot, gtkSlot⟩ := st
  obtain rfl : vif = 0 := hvif
  exact performs_events granting _ ()

end Association

/-- A frame as it comes from the access point of the association. -/
def received (eapol : List UInt8) : List UInt8 := List.replicate 12 0 ++ [0x88, 0x8E] ++ eapol

theorem handle_received {st : Sta} (hactive : st.active = true) (haa : st.aa = Octets.zero 6)
    {eapol : List UInt8} (hlen : 4 ≤ eapol.length) {cs : List Event} {es fs : List StaEvent}
    {r : Wpa2Result} {sm : Wpa2Sm} {st₁ st' : Sta} (hrx : Performs (wpa2SmRx st.sm eapol) cs (r, sm))
    (hops : Interpreted kOps st cs es st₁) (hend : Performs (concludeRx r { st₁ with sm := sm }) fs st') :
    Performs (handle st (.eapol 0 (received eapol))) (es ++ fs) st' := by
  have hhead : received eapol = List.replicate 6 0 ++ (List.replicate 6 0 ++ ([0x88, 0x8E] ++ eapol)) :=
    rfl
  have hopen : ¬(!st.active ∨ (received eapol).length < 14 + 4) := by
    simp [hactive, received]
    omega
  have hsame : ¬slice (received eapol) 6 6 ≠ st.aa.val := by
    rw [haa]
    exact not_not.mpr rfl
  rw [handle, if_neg hopen, if_neg hsame]
  exact (hops.performs hrx).bind hend

/-- The task right after it was armed. -/
def armed : Sta where
  sm := wpa2SmInit (Octets.zero 32) (Octets.zero 6) (Octets.zero 6)
  active := true
  pending := true
  vif := 0
  aa := Octets.zero 6
  own := Octets.zero 6
  ptkSlot := noSlot
  gtkSlot := noSlot

/-- The task that has answered message 1. -/
abbrev answered : Sta := { armed with
  sm := waiting (Octets.zero 32) (Octets.zero 6) (Octets.zero 6) (Octets.zero 32) (Octets.zero 32) }

/-- Message 1 is answered and the task waits. -/
theorem handle_message1 : ∃ es, Performs (handle armed
      (.eapol 0 (received (plainMessage1 (Octets.zero 32)).bytes))) es answered ∧
    Steps lmac (fun _ => none) es (fun _ => none) := by
  have hfirst := performs_smStep countingOps armed.sm (plainMessage1 (Octets.zero 32)).bytes 0
  have hstep := smStep_first countingOps_succeed (Octets.zero 32) (Octets.zero 6) (Octets.zero 6)
    (Octets.zero 32) (plainMessage1 (Octets.zero 32)) 0
  dsimp only at hstep
  rw [show armed.sm = wpa2SmInit (Octets.zero 32) (Octets.zero 6) (Octets.zero 6) from rfl,
    hstep] at hfirst
  have hdraw : Performs (kOps (.random 32) armed)
      [⟨.trngEnable, ()⟩, ⟨.getRandomBytes 32, Octets.zero 32⟩] (Octets.zero 32, armed) :=
    performs_events granting _ ()
  have hlen : (message2 (waiting (Octets.zero 32) (Octets.zero 6) (Octets.zero 6) (Octets.zero 32)
      (Octets.zero 32)) (Octets.zero 8)).length ≤ wpa2EapolMax := by
    rw [message2, KeyFrame.signed, KeyFrame.length_bytes _ (KeyFrame.length_mic _ _)]
    decide
  refine ⟨_, handle_received rfl rfl ?_ hfirst
    (.cons hdraw (.cons (performs_send armed hlen) (.nil armed))) (.ret _), ?_⟩
  · decide
  · exact ⟨_, rfl, _, rfl, _, rfl, rfl⟩

/-- The machine accepts a message 3 that it waits for. -/
theorem performs_message3 {pmk : Octets 32} {aa spa : Octets 6} {anonce snonce : Octets 32}
    {keyId : UInt8} {gtk : Octets 16}
    (m : Message3 (ieeePtk pmk aa spa anonce snonce) anonce keyId gtk) :
    4 ≤ m.bytes.length ∧ ∃ f sm', f.length ≤ wpa2EapolMax ∧
      Performs (wpa2SmRx (waiting pmk aa spa anonce snonce) m.bytes)
        [⟨.send f, true⟩, ⟨.installPtk (tk (ieeePtk pmk aa spa anonce snonce)), true⟩,
          ⟨.installGtk keyId gtk, true⟩, ⟨.openPort, true⟩] (.done, sm') := by
  have hrx := performs_smStep countingOps (waiting pmk aa spa anonce snonce) m.bytes 0
  obtain ⟨hdone, hevents⟩ := smStep_message3 countingOps_succeed m 0
  rw [hdone, hevents] at hrx
  refine ⟨?_, _, _, ?_, hrx⟩
  · rw [Message3.bytes, List.length_append, KeyFrame.signed,
      KeyFrame.length_bytes _ (KeyFrame.length_mic _ _), KeyFrame.size_eq]
    omega
  · rw [confirmation, KeyFrame.signed, KeyFrame.length_bytes _ (KeyFrame.length_mic _ _)]
    exact (by decide : 99 + 0 ≤ 512)

/-- Message 3 brings in both keys. -/
theorem handle_done {st : Sta} (hactive : st.active = true) (haa : st.aa = Octets.zero 6)
    (hvif : st.vif = 0) (hslot : st.gtkSlot = noSlot) {eapol f : List UInt8}
    (hlen : 4 ≤ eapol.length) (hf : f.length ≤ wpa2EapolMax) {key gtk : Octets 16} {sm' : Wpa2Sm}
    (hrx : Performs (wpa2SmRx st.sm eapol) [⟨.send f, true⟩, ⟨.installPtk key, true⟩,
      ⟨.installGtk 1 gtk, true⟩, ⟨.openPort, true⟩] (.done, sm')) :
    ∃ es st', Performs (handle st (.eapol 0 (received eapol))) es st' ∧
      Steps lmac (fun _ => none) es (Function.update (Function.update (fun _ => none) 1
        (some ⟨.sPtkSlot, 0, key⟩)) 2 (some ⟨.slot, 1, gtk⟩)) ∧
      st'.pending = false ∧ st'.ptkSlot = 1 ∧ st'.gtkSlot = 2 := by
  refine ⟨_, _, handle_received hactive haa hlen hrx (.cons (performs_send st hf)
    (.cons (performs_installPtk st hvif key)
      (.cons (performs_installGtk { st with ptkSlot := 1 } hvif hslot gtk)
        (.cons (performs_openPort { st with ptkSlot := 1, gtkSlot := 2 } hvif) (.nil _)))))
    (performs_events granting _ ()), ?_, rfl, rfl, rfl⟩
  refine ⟨_, rfl, _, rfl, _, ⟨⟨by decide, by simp⟩, rfl⟩, _, ⟨⟨by decide, by simp⟩, rfl⟩, _, rfl, _,
    rfl, _, rfl, rfl⟩

/-! ## The theorem -/

/-- What the task accounts for after its messages. -/
structure KeysAccounted (log : StaLog) (st : Sta) (keys : LmacKeys) : Prop where
  keys_eq : keys = installed st.sm st
  dropped : ∀ m es rest, log = (m, es) :: rest → m.isArm = true ∨ m = .disarm →
    keys = fun _ => none
  verdict : verdicts log ≤ 1
  abort : ∀ es rest, log = (.abort, es) :: rest → 1 ≤ verdicts rest →
    ∀ e ∈ es, ∀ vif, e.1 ≠ .connectLeave vif

/-- After every sequence of messages, with whatever frames and whatever the LMAC answers. -/
theorem wpa2Sta_keys {log : StaLog} {st : Sta} {keys : LmacKeys} (h : Handled log st keys) :
    KeysAccounted log st keys := by
  have hinv := h.inv
  refine ⟨hinv.accounts.keys_eq, ?_, hinv.verdict, ?_⟩
  · rintro m es rest rfl hm
    cases h with
    | message hbefore hrun hsteps =>
      rcases hm with harm | rfl
      · cases m with
        | arm vif pmk bssid => exact (hbefore.inv.arm hrun hsteps).2
        | eapol | disarm | abort => simp [Msg.isArm] at harm
      · exact (hbefore.inv.disarm hrun hsteps).2
  · rintro es rest rfl hone
    cases h with
    | message hbefore hrun hsteps =>
      have hle := hbefore.inv.verdict
      rw [(hbefore.inv.abort hrun hsteps).2 (by omega)]
      simp

/-- Both keys of an association are in, and gone again at its end. -/
theorem wpa2Sta_keys_association : ∃ log st keys, Handled log st keys ∧ KeysAccounted log st keys ∧
    (∃ key, keys 1 = some ⟨.sPtkSlot, 0, key⟩) ∧ keys 2 = some ⟨.slot, 1, Octets.zero 16⟩ ∧
    ∃ es st', Handled ((.disarm, es) :: (.abort, []) :: log) st' (fun _ => none) ∧
      KeysAccounted ((.disarm, es) :: (.abort, []) :: log) st' (fun _ => none) := by
  have harm : Performs (handle .start (.arm 0 (Octets.zero 32) (Octets.zero 6)))
      [⟨.wifiNetIface, some (Octets.zero 6)⟩] armed := performs_events granting _ ()
  obtain ⟨fs, hanswered, hkept⟩ := handle_message1
  obtain ⟨hlen, f, sm, hf, hrx⟩ := performs_message3
    (plainMessage3 (ieeePtk (Octets.zero 32) (Octets.zero 6) (Octets.zero 6) (Octets.zero 32)
      (Octets.zero 32)) (Octets.zero 32) (Octets.zero 16))
  obtain ⟨gs, st, hdone, hadded, hpending, hptk, hgtk⟩ :=
    handle_done (show answered.active = true from rfl) rfl rfl rfl hlen hf hrx
  have hlog := Handled.message (.message (.message .start harm ⟨_, ⟨by simp, rfl⟩, rfl⟩)
    hanswered hkept) hdone hadded
  have habort : Performs (handle st .abort) [] st := by
    rw [handle, if_neg (by simp [hpending])]
    exact .ret st
  have hdisarm : Performs (handle st .disarm)
      [⟨.mmKeyDel 1, true⟩, ⟨.mmKeyDel 2, true⟩] { st with
        active := false
        pending := false
        ptkSlot := noSlot
        gtkSlot := noSlot } := by
    obtain ⟨sm, active, pending, vif, aa, own, ptkSlot, gtkSlot⟩ := st
    obtain rfl : ptkSlot = 1 := hptk
    obtain rfl : gtkSlot = 2 := hgtk
    exact performs_events granting _ ()
  have hend : Handled _ _ (fun _ => none) :=
    .message (.message hlog habort rfl) hdisarm (by
      refine ⟨_, rfl, _, rfl, ?_⟩
      funext slot
      simp only [Function.update_apply]
      split_ifs <;> rfl)
  exact ⟨_, st, _, hlog, wpa2Sta_keys hlog, ⟨_, rfl⟩, rfl, _, _, hend, wpa2Sta_keys hend⟩

end BekenCam.Wpa2
