import BekenCam.ByteBuffer
import BekenCam.DeviceRuns
import BekenCam.StepRuns

/-!
# Bringing an interface up

The table of the two interfaces and the calls that write it, one at a time. The LMAC carries out a
request or does not; when the confirmation does not come, it may have done either. What it is asked
out of order is recorded.
-/
namespace BekenCam.WifiNet

open Prog

/-- The interfaces, which are one of each type. -/
inductive IfaceId
  | sta
  | ap
  deriving DecidableEq

def invalidVifIdx : UInt8 := 0xFF
def nxVirtDevMax : UInt8 := 2

structure NetIf where
  vif : UInt8
  hwaddr : Octets 6
  started : Bool
  up : Bool

abbrev Table := IfaceId → NetIf

def wifiIfaces : Table
  | .sta => ⟨invalidVifIdx, ⟨[0xC8, 0x47, 0x8C, 0x42, 0x88, 0x48], rfl⟩, false, false⟩
  | .ap => ⟨invalidVifIdx, ⟨[0xC8, 0x47, 0x8C, 0x42, 0x88, 0x49], rfl⟩, false, false⟩

def wifiNetIface (name : String) : Option IfaceId :=
  if name = "sta" then some .sta else if name = "ap" then some .ap else none

def ifaceFromVif (t : Table) (vifIdx : UInt8) : Option IfaceId :=
  if vifIdx = invalidVifIdx then none
  else if (t .sta).started ∧ (t .sta).vif = vifIdx then some .sta
  else if (t .ap).started ∧ (t .ap).vif = vifIdx then some .ap
  else none

def wifiNetSetMac (t : Table) (name : String) (mac : Octets 6) : Bool × Table :=
  match wifiNetIface name with
  | none => (false, t)
  | some i =>
    if (t i).started then (false, t)
    else if mac.val.headD 0 &&& 0x01 ≠ 0 then (false, t)
    else if mac = .zero 6 then (false, t)
    else (true, Function.update t i { t i with hwaddr := mac })

/-! ## Bring-up -/

inductive ConfigureStep
  | reset
  | meConfig
  | meChanConfig
  | start
  deriving DecidableEq

def configureSteps : List ConfigureStep := [.reset, .meConfig, .meChanConfig, .start]

structure AddIfCfm where
  status : UInt8
  instNbr : UInt8

inductive Command
  | coreRunning
  | usedListEmpty
  | configure (c : ConfigureStep)
  | addIf (type : IfaceId) (mac : Octets 6)
  | netifAdd (i : IfaceId)

/-- The requests give an error code, 0 for none; `addIf` also the confirmation. -/
abbrev Answer : Command → Type
  | .coreRunning | .usedListEmpty | .netifAdd _ => Bool
  | .configure _ => ℤ
  | .addIf _ _ => ℤ × AddIfCfm

abbrev Job := Prog Command Answer

def sendSteps : List ConfigureStep → Job Bool
  | [] => return true
  | c :: cs => do
    let rc ← command (.configure c)
    if rc ≠ 0 then return false else sendSteps cs

def configureLmac : Job Bool := do
  let empty ← command .usedListEmpty
  if !empty then return true else sendSteps configureSteps

def registerVif (t : Table) (i : IfaceId) : Job (Bool × Table) := do
  let answer : ℤ × AddIfCfm ← command (Command.addIf i (t i).hwaddr)
  if answer.1 ≠ 0 then return (false, t)
  else if answer.2.status ≠ 0 then return (false, t)
  else if nxVirtDevMax ≤ answer.2.instNbr then return (false, t)
  else return (true, Function.update t i { t i with vif := answer.2.instNbr })

/-- What follows once the core task runs. -/
def startIface (t : Table) (i : IfaceId) : Job (Option IfaceId × Table) := do
  let configured ← configureLmac
  if !configured then return (none, t)
  else
    let (registered, t) ← registerVif t i
    if !registered then return (none, t)
    else
      let created ← command (.netifAdd i)
      if !created then return (none, t)
      else return (some i, Function.update t i { t i with started := true, up := true })

def wifiNetEnsureIface (t : Table) (name : String) : Job (Option IfaceId × Table) :=
  match wifiNetIface name with
  | none => return (none, t)
  | some i =>
    if (t i).started then return (some i, Function.update t i { t i with up := true })
    else do
      let running ← command .coreRunning
      if !running then return (none, t) else startIface t i

/-- The end of `wifi_sta_stop`, when the station was up and has left. -/
def wifiStaStop (t : Table) : Table :=
  if (t .sta).up then Function.update t .sta { t .sta with up := false } else t

/-! ## The LMAC -/

structure Vif where
  idx : UInt8
  type : IfaceId
  mac : Octets 6

/-- `phase` is how many of the configure steps were carried out one after the other since the last
reset. `misused` records a configure request while there are interfaces, and a request for an
interface before all the steps. -/
structure Lmac where
  phase : ℕ
  vifs : List Vif
  misused : Bool

namespace Lmac

def init : Lmac := ⟨0, [], false⟩

def asked (l : Lmac) (ok : Bool) : Lmac := { l with misused := l.misused || !ok }

theorem asked_true (l : Lmac) : l.asked true = l := by simp [asked]

/-- A reset drops the interfaces. -/
def configure (l : Lmac) (c : ConfigureStep) : Lmac :=
  match c with
  | .reset => { l with phase := 1, vifs := [] }
  | .meConfig => { l with phase := if l.phase = 1 then 2 else 0 }
  | .meChanConfig => { l with phase := if l.phase = 2 then 3 else 0 }
  | .start => { l with phase := if l.phase = 3 then 4 else 0 }

/-- A request that is confirmed was carried out. An interface gets an index that no other has. -/
def device : Device Command Answer Lmac
  | .coreRunning, l, _, l' => l' = l
  | .usedListEmpty, l, empty, l' => empty = l.vifs.isEmpty ∧ l' = l
  | .configure c, l, rc, l' =>
    l' = (l.asked l.vifs.isEmpty).configure c ∨ rc ≠ 0 ∧ l' = l.asked l.vifs.isEmpty
  | .addIf type mac, l, (rc, cfm), l' =>
    (∃ idx, (∀ v ∈ l.vifs, v.idx ≠ idx) ∧ (rc = 0 → cfm.status = 0 ∧ cfm.instNbr = idx) ∧
      l' = { l.asked (l.phase = 4) with vifs := ⟨idx, type, mac⟩ :: l.vifs }) ∨
    (rc ≠ 0 ∨ cfm.status ≠ 0) ∧ l' = l.asked (l.phase = 4)
  | .netifAdd _, l, _, l' => l' = l

end Lmac

/-! ## The calls in any order -/

inductive Call
  | ensureIface (name : String)
  | setMac (name : String) (mac : Octets 6)
  | staStop

structure State where
  table : Table
  lmac : Lmac

def init : State := ⟨wifiIfaces, .init⟩

def Takes (s : State) : Call → State → Prop
  | .ensureIface name, s' => ∃ es i, Performs (wifiNetEnsureIface s.table name) es (i, s'.table) ∧
    Steps Lmac.device s.lmac es s'.lmac
  | .setMac name mac, s' => s' = ⟨(wifiNetSetMac s.table name mac).2, s.lmac⟩
  | .staStop, s' => s' = ⟨wifiStaStop s.table, s.lmac⟩

/-! ## What the LMAC and the table have in common -/

/-- The interface is known to the LMAC as the table has it. -/
def Registered (t : Table) (l : Lmac) (i : IfaceId) : Prop :=
  (t i).vif < nxVirtDevMax ∧ ∃ v ∈ l.vifs, v = ⟨(t i).vif, i, (t i).hwaddr⟩

structure Inv (t : Table) (l : Lmac) : Prop where
  inOrder : l.misused = false
  complete : l.vifs ≠ [] → l.phase = 4
  distinct : (l.vifs.map Vif.idx).Nodup
  registered : ∀ i, (t i).started = true → Registered t l i

/-- An interface that was started stays as it is, but for `up`. -/
def Kept (t t' : Table) : Prop :=
  ∀ i, (t i).started = true → (t' i).started = true ∧ (t' i).vif = (t i).vif ∧
    (t' i).hwaddr = (t i).hwaddr

theorem Kept.refl (t : Table) : Kept t t := fun _ h => ⟨h, rfl, rfl⟩

theorem Kept.trans {t t' t'' : Table} (h : Kept t t') (h' : Kept t' t'') : Kept t t'' := by
  intro i hi
  obtain ⟨hstarted, hvif, hmac⟩ := h i hi
  obtain ⟨hstarted', hvif', hmac'⟩ := h' i hstarted
  exact ⟨hstarted', hvif'.trans hvif, hmac'.trans hmac⟩

section Steps

variable {t t' : Table} {l l' : Lmac} {i : IfaceId}

/-- Only an interface that is not started is written. -/
theorem Kept.update (hi : (t i).started = false) (x : NetIf) : Kept t (Function.update t i x) := by
  intro j hj
  have hji : j ≠ i := by
    rintro rfl
    simp [hi] at hj
  rw [Function.update_of_ne hji]
  exact ⟨hj, rfl, rfl⟩

theorem Kept.setUp (t : Table) (i : IfaceId) (up : Bool) :
    Kept t (Function.update t i { t i with up := up }) := by
  intro j hj
  by_cases hji : j = i
  · subst hji
    simpa using hj
  · rw [Function.update_of_ne hji]
    exact ⟨hj, rfl, rfl⟩

/-- A call writes an interface that is not started. -/
theorem Inv.update (h : Inv t l) (hi : (t i).started = false) {x : NetIf}
    (hx : x.started = true → Registered (Function.update t i x) l i) :
    Inv (Function.update t i x) l := by
  refine ⟨h.inOrder, h.complete, h.distinct, fun j hj => ?_⟩
  by_cases hji : j = i
  · subst hji
    exact hx (by simpa using hj)
  · rw [Function.update_of_ne hji] at hj
    simpa [Registered, Function.update_of_ne hji] using h.registered j hj

theorem Inv.setUp (h : Inv t l) (i : IfaceId) (up : Bool) :
    Inv (Function.update t i { t i with up := up }) l := by
  refine ⟨h.inOrder, h.complete, h.distinct, fun j hj => ?_⟩
  by_cases hji : j = i
  · subst hji
    simpa [Registered] using h.registered j (by simpa using hj)
  · rw [Function.update_of_ne hji] at hj
    simpa [Registered, Function.update_of_ne hji] using h.registered j hj

/-- Without interfaces nothing is started. -/
theorem Inv.not_started (h : Inv t l) (hempty : l.vifs = []) (i : IfaceId) :
    (t i).started = false := by
  by_contra hi
  obtain ⟨-, v, hv, -⟩ := h.registered i (by simpa using hi)
  simp [hempty] at hv

/-! ## What one call keeps -/

/-- From the `k`th step on, with `k` of them done. -/
theorem wp_sendSteps {cs : List ConfigureStep} {k : ℕ} (hk : configureSteps.drop k = cs)
    (hlen : k ≤ configureSteps.length) (hphase : k = 0 ∨ l.phase = k) (hvifs : l.vifs = [])
    (hused : l.misused = false) :
    Wp Lmac.device (fun ok l' => l'.vifs = [] ∧ l'.misused = false ∧
      (ok = true → l'.phase = configureSteps.length)) (sendSteps cs) l := by
  induction cs generalizing k l with
  | nil =>
    have hdone : k = configureSteps.length := by
      have := List.drop_eq_nil_iff.mp hk
      omega
    rcases hphase with rfl | hphase
    · simp [configureSteps] at hdone
    · exact ⟨hvifs, hused, fun _ => hphase.trans hdone⟩
  | cons c cs ih =>
    have hlt : k < configureSteps.length := by
      by_contra hge
      rw [List.drop_eq_nil_iff.mpr (by omega)] at hk
      simp at hk
    obtain ⟨hc, hcs⟩ : configureSteps[k] = c ∧ configureSteps.drop (k + 1) = cs := by
      rw [List.drop_eq_getElem_cons hlt] at hk
      exact List.cons.inj hk
    have hempty : l.vifs.isEmpty = true := by simp [hvifs]
    refine wp_command.mpr fun rc l' hdev => ?_
    simp only [Lmac.device, hempty, Lmac.asked_true] at hdev
    rcases hdev with rfl | ⟨hrc, rfl⟩
    · split_ifs with hrc
      · exact ⟨by cases c <;> simp [Lmac.configure, hvifs], by cases c <;> exact hused, nofun⟩
      · refine ih hcs hlt (.inr ?_) (by cases c <;> simp [Lmac.configure, hvifs])
          (by cases c <;> exact hused)
        -- the step that comes next is the one the LMAC is ready for
        subst hc
        rcases hphase with rfl | hphase
        · rfl
        · simp only [configureSteps, List.length_cons, List.length_nil] at hlt
          interval_cases k <;> simp [configureSteps, Lmac.configure, hphase]
    · rw [if_pos hrc]
      exact ⟨hvifs, hused, nofun⟩

theorem wp_configureLmac (h : Inv t l) : Wp Lmac.device (fun ok l' => Inv t l' ∧
    (ok = true → l'.phase = configureSteps.length)) configureLmac l := by
  refine wp_command.mpr ?_
  rintro empty l' ⟨rfl, rfl⟩
  by_cases hvifs : l'.vifs = []
  · simp only [hvifs, List.isEmpty_nil, Bool.not_true, Bool.false_eq_true, if_false]
    refine (wp_sendSteps rfl (Nat.zero_le _) (.inl rfl) hvifs h.inOrder).mono ?_
    rintro ok l'' ⟨hvifs', hused, hphase⟩
    refine ⟨⟨hused, fun hne => absurd hvifs' hne, by simp [hvifs'], fun i hi => ?_⟩, hphase⟩
    simp [h.not_started hvifs i] at hi
  · have hempty : l'.vifs.isEmpty = false := by simpa using hvifs
    simp only [hempty, Bool.not_false, if_true]
    exact ⟨h, fun _ => h.complete hvifs⟩

/-- What `registerVif` leaves: the table is ready for the interface to be started. -/
def ReadyFor (i : IfaceId) (t : Table) (l : Lmac) : Prop :=
  Inv t l ∧ (t i).started = false ∧ Registered t l i

theorem wp_registerVif (h : Inv t l) (hphase : l.phase = configureSteps.length)
    (hi : (t i).started = false) : Wp Lmac.device (fun p l' => Inv p.2 l' ∧ Kept t p.2 ∧
      (p.1 = true → ReadyFor i p.2 l')) (registerVif t i) l := by
  have hready : decide (l.phase = 4) = true := decide_eq_true hphase
  refine wp_command.mpr fun answer l' hdev => ?_
  obtain ⟨rc, cfm⟩ := answer
  simp only [Lmac.device, hready, Lmac.asked_true] at hdev
  rcases hdev with ⟨idx, hfresh, hcfm, rfl⟩ | ⟨hrefused, rfl⟩
  · -- whatever the confirmation says, there is one more interface
    have hmore : Inv t { l with vifs := ⟨idx, i, (t i).hwaddr⟩ :: l.vifs } := by
      refine ⟨h.inOrder, fun _ => hphase, ?_, fun j hj => ?_⟩
      · simpa using ⟨hfresh, h.distinct⟩
      · obtain ⟨hlt, v, hv, hvj⟩ := h.registered j hj
        exact ⟨hlt, v, List.mem_cons_of_mem _ hv, hvj⟩
    split_ifs with hrc hstatus hidx
    · exact ⟨hmore, .refl t, nofun⟩
    · exact ⟨hmore, .refl t, nofun⟩
    · exact ⟨hmore, .refl t, nofun⟩
    · obtain ⟨-, rfl⟩ := hcfm (not_not.mp hrc)
      have hregistered : Registered (Function.update t i { t i with vif := cfm.instNbr })
          { l with vifs := ⟨cfm.instNbr, i, (t i).hwaddr⟩ :: l.vifs } i :=
        ⟨by simpa using hidx, _, List.mem_cons_self, by simp⟩
      have hready := hmore.update hi (x := { t i with vif := cfm.instNbr }) fun _ => hregistered
      exact ⟨hready, .update hi _, fun _ => ⟨hready, by simpa using hi, hregistered⟩⟩
  · rcases hrefused with hrc | hstatus
    · rw [if_pos hrc]
      exact ⟨h, .refl t, nofun⟩
    · split_ifs
      · exact ⟨h, .refl t, nofun⟩
      · exact ⟨h, .refl t, nofun⟩

theorem wp_startIface (h : Inv t l) (hi : (t i).started = false) :
    Wp Lmac.device (fun p l' => Inv p.2 l' ∧ Kept t p.2) (startIface t i) l := by
  refine wp_bind.mpr ((wp_configureLmac h).mono ?_)
  rintro configured l₁ ⟨hinv, hphase⟩
  cases configured with
  | false => exact ⟨hinv, .refl t⟩
  | true =>
    refine wp_bind.mpr ((wp_registerVif hinv (hphase rfl) hi).mono ?_)
    rintro ⟨registered, t₁⟩ l₂ ⟨hinv₁, hkept, hready⟩
    cases registered with
    | false => exact ⟨hinv₁, hkept⟩
    | true =>
      obtain ⟨-, hi₁, hregistered⟩ := hready rfl
      rintro created l₃ rfl
      cases created with
      | false => exact ⟨hinv₁, hkept⟩
      | true =>
        exact ⟨hinv₁.update hi₁ fun _ => by simpa [Registered] using hregistered,
          hkept.trans (.update hi₁ _)⟩

theorem wp_wifiNetEnsureIface (name : String) (h : Inv t l) :
    Wp Lmac.device (fun p l' => Inv p.2 l' ∧ Kept t p.2) (wifiNetEnsureIface t name) l := by
  unfold wifiNetEnsureIface
  split
  · exact ⟨h, .refl t⟩
  · next i _ =>
    split_ifs with hi
    · exact ⟨h.setUp i true, .setUp t i true⟩
    · rintro running l₁ rfl
      cases running with
      | false => exact ⟨h, .refl t⟩
      | true => exact wp_startIface h (by simpa using hi)

theorem wifiNetSetMac_kept (name : String) (mac : Octets 6) (h : Inv t l) :
    Inv (wifiNetSetMac t name mac).2 l ∧ Kept t (wifiNetSetMac t name mac).2 := by
  unfold wifiNetSetMac
  split
  · exact ⟨h, .refl t⟩
  · next i _ =>
    split_ifs with hi hmulticast hzero
    · exact ⟨h, .refl t⟩
    · exact ⟨h, .refl t⟩
    · exact ⟨h, .refl t⟩
    · have hi : (t i).started = false := by simpa using hi
      exact ⟨h.update hi (by simp [hi]), .update hi _⟩

theorem wifiStaStop_kept (h : Inv t l) : Inv (wifiStaStop t) l ∧ Kept t (wifiStaStop t) := by
  unfold wifiStaStop
  split_ifs
  · exact ⟨h.setUp .sta false, .setUp t .sta false⟩
  · exact ⟨h, .refl t⟩

end Steps

/-! ## Runs -/

theorem takes_kept {s s' : State} {c : Call} (h : Inv s.table s.lmac) (htakes : Takes s c s') :
    Inv s'.table s'.lmac ∧ Kept s.table s'.table := by
  cases c with
  | ensureIface name =>
    obtain ⟨es, i, hperforms, hsteps⟩ := htakes
    exact (wp_wifiNetEnsureIface name h).of_run hperforms hsteps
  | setMac name mac =>
    obtain rfl := htakes
    exact wifiNetSetMac_kept name mac h
  | staStop =>
    obtain rfl := htakes
    exact wifiStaStop_kept h

theorem init_inv : Inv init.table init.lmac :=
  ⟨rfl, fun h => absurd rfl h, List.nodup_nil, fun i hi => by cases i <;> simp [init, wifiIfaces] at hi⟩

/-- The calls in `cs` were made one after the other. -/
def Made : List Call → State → State → Prop
  | [], s, s' => s' = s
  | c :: cs, s, s' => ∃ s₁, Takes s c s₁ ∧ Made cs s₁ s'

theorem made_kept {cs : List Call} {s s' : State} (h : Inv s.table s.lmac) (hmade : Made cs s s') :
    Inv s'.table s'.lmac ∧ Kept s.table s'.table := by
  induction cs generalizing s with
  | nil =>
    obtain rfl := hmade
    exact ⟨h, .refl _⟩
  | cons c cs ih =>
    obtain ⟨s₁, htakes, hrest⟩ := hmade
    obtain ⟨hinv, hkept⟩ := takes_kept h htakes
    obtain ⟨hinv', hkept'⟩ := ih hinv hrest
    exact ⟨hinv', hkept.trans hkept'⟩

section Found

variable {t : Table} {l : Lmac}

/-- One index is one interface of the LMAC, and that has one type. -/
theorem Inv.vif_inj (h : Inv t l) {i j : IfaceId} (hi : (t i).started = true)
    (hj : (t j).started = true) (hvif : (t i).vif = (t j).vif) : i = j := by
  obtain ⟨-, v, hv, rfl⟩ := h.registered i hi
  obtain ⟨-, w, hw, rfl⟩ := h.registered j hj
  have hsame := List.inj_on_of_nodup_map h.distinct hv hw hvif
  exact congrArg Vif.type hsame

theorem Inv.ifaceFromVif (h : Inv t l) {i : IfaceId} (hi : (t i).started = true) :
    ifaceFromVif t (t i).vif = some i := by
  have hvalid : (t i).vif ≠ invalidVifIdx := by
    have hlt := (h.registered i hi).1
    rintro heq
    rw [heq] at hlt
    exact absurd hlt (by decide)
  unfold WifiNet.ifaceFromVif
  rw [if_neg hvalid]
  cases i with
  | sta => simp [hi]
  | ap =>
    have hother : ¬((t .sta).started = true ∧ (t .sta).vif = (t .ap).vif) :=
      fun hsta => absurd (h.vif_inj hsta.1 hi hsta.2) (by simp)
    rw [if_neg hother, if_pos ⟨hi, rfl⟩]

end Found

/-- The LMAC is asked for everything in order. An interface that was started is one it has, by the
same index, type and address, frames from it are told apart by the index, and it stays so. -/
theorem wifiNetEnsureIface_runs {before after : List Call} {s s' : State}
    (hbefore : Made before init s) (hafter : Made after s s') :
    s'.lmac.misused = false ∧
      (∀ i, (s'.table i).started = true →
        Registered s'.table s'.lmac i ∧ ifaceFromVif s'.table (s'.table i).vif = some i) ∧
      Kept s.table s'.table := by
  obtain ⟨hinv, -⟩ := made_kept init_inv hbefore
  obtain ⟨hinv', hkept⟩ := made_kept hinv hafter
  exact ⟨hinv'.inOrder, fun i hi => ⟨hinv'.registered i hi, hinv'.ifaceFromVif hi⟩, hkept⟩

/-- An LMAC that confirms everything, and numbers the interfaces as they come. -/
def willing : Handler Command Answer Lmac
  | .coreRunning, l => (true, l)
  | .usedListEmpty, l => (l.vifs.isEmpty, l)
  | .configure c, l => (0, (l.asked l.vifs.isEmpty).configure c)
  | .addIf type mac, l => ((0, ⟨0, .ofNat l.vifs.length⟩),
      { l.asked (l.phase = 4) with vifs := ⟨.ofNat l.vifs.length, type, mac⟩ :: l.vifs })
  | .netifAdd _, l => (true, l)

def unusedIdx (c : Command) (l : Lmac) : Bool :=
  match c with
  | .addIf _ _ => l.vifs.all fun v => v.idx ≠ .ofNat l.vifs.length
  | _ => true

theorem willing_device (c : Command) (l : Lmac) (h : unusedIdx c l = true) :
    Lmac.device c l (willing c l).1 (willing c l).2 := by
  cases c with
  | coreRunning => rfl
  | usedListEmpty => exact ⟨rfl, rfl⟩
  | configure c => exact .inl rfl
  | addIf type mac =>
    refine .inl ⟨.ofNat l.vifs.length, fun v hv => ?_, fun _ => ⟨rfl, rfl⟩, rfl⟩
    simpa using List.all_eq_true.mp h v hv
  | netifAdd i => rfl

def ensured (s : State) (name : String) : State :=
  ⟨(run willing (wifiNetEnsureIface s.table name) s.lmac).1.2,
    (run willing (wifiNetEnsureIface s.table name) s.lmac).2⟩

theorem takes_ensured {s : State} {name : String}
    (h : AsksOnly willing unusedIdx (wifiNetEnsureIface s.table name) s.lmac = true) :
    Takes s (.ensureIface name) (ensured s name) :=
  ⟨_, _, performs_events willing _ _, steps_events willing_device h⟩

theorem wifiNetEnsureIface_runs_both :
    Made [.ensureIface "sta"] init (ensured init "sta") ∧
      Made [.ensureIface "ap"] (ensured init "sta") (ensured (ensured init "sta") "ap") ∧
      (∀ i, ((ensured (ensured init "sta") "ap").table i).started = true) ∧
      (ensured (ensured init "sta") "ap").lmac.misused = false := by
  have hsta : Made [.ensureIface "sta"] init (ensured init "sta") := ⟨_, takes_ensured rfl, rfl⟩
  have hap : Made [.ensureIface "ap"] (ensured init "sta") (ensured (ensured init "sta") "ap") :=
    ⟨_, takes_ensured rfl, rfl⟩
  exact ⟨hsta, hap, fun i => by cases i <;> rfl, (wifiNetEnsureIface_runs hsta hap).1⟩

end BekenCam.WifiNet
