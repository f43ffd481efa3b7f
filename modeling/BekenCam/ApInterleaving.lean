import BekenCam.ApSequence
import BekenCam.StepRuns

/-!
# Callers next to the task of the access point

Any number of callers of `wifi_ap_start` and `wifi_ap_stop` run next to the one task that answers
frames, one command at a time in any order. `session_init` is one command, so the task and the
mutex exist once. A start clears the table without the session's mutex, and one that the LMAC
refuses lowers `s_running` without clearing the clients that came in the meantime. Away from these
two windows no station is left behind.
-/
namespace BekenCam.Ap

open Prog

variable {ι : Type}

/-- What a caller is doing, with the rest of its program. -/
inductive Call
  | idle
  | starting (rest : ApM Bool)
  | stopping (rest : ApM Bool)

/-- The actors of the mutex are the callers and the task, which is `none`. Its program is finished
while it waits for a frame. -/
structure System (ι : Type) where
  vars : Shared (Option ι)
  task : ApM Unit
  caller : ι → Call

/-- No start, no stop and no frame is in progress. -/
def Idle (s : System ι) : Prop := s.task = pure () ∧ ∀ i, s.caller i = .idle

/-- Nothing was started yet. -/
structure Initial (s : System ι) : Prop where
  idle : Idle s
  running : s.vars.running = false
  session : s.vars.session = none
  table : s.vars.core.table = apClientsClear
  stations : s.vars.core.stations = fun _ => none

section Steps

variable [DecidableEq ι]

def System.set (s : System ι) (i : ι) (call : Call) : System ι :=
  { s with caller := Function.update s.caller i call }

/-- One step of the task or of a caller. -/
inductive Step : System ι → Option ι → System ι → Prop
  | receive {s : System ι} (frame : List UInt8) (h : s.task = pure ()) :
      Step s none { s with task := dhcpServerTask frame }
  | task {s : System ι} {c : ApCmd} {k : c.Answer → ApM Unit} {r : c.Answer}
      {vars : Shared (Option ι)} (h : s.task = .call c k) (hdev : shared none c s.vars r vars) :
      Step s none { s with vars := vars, task := k r }
  | callStart {s : System ι} {i : ι} (config : ApConfig) (h : s.caller i = .idle) :
      Step s (some i) (s.set i (.starting (wifiApStart config)))
  | callStop {s : System ι} {i : ι} (h : s.caller i = .idle) :
      Step s (some i) (s.set i (.stopping wifiApStop))
  | start {s : System ι} {i : ι} {c : ApCmd} {k : c.Answer → ApM Bool} {r : c.Answer}
      {vars : Shared (Option ι)} (h : s.caller i = .starting (.call c k))
      (hdev : shared (some i) c s.vars r vars) :
      Step s (some i) ({ s with vars := vars }.set i (.starting (k r)))
  | stop {s : System ι} {i : ι} {c : ApCmd} {k : c.Answer → ApM Bool} {r : c.Answer}
      {vars : Shared (Option ι)} (h : s.caller i = .stopping (.call c k))
      (hdev : shared (some i) c s.vars r vars) :
      Step s (some i) ({ s with vars := vars }.set i (.stopping (k r)))
  | startReturns {s : System ι} {i : ι} {ok : Bool} (h : s.caller i = .starting (.ret ok)) :
      Step s (some i) (s.set i .idle)
  | stopReturns {s : System ι} {i : ι} {ok : Bool} (h : s.caller i = .stopping (.ret ok)) :
      Step s (some i) (s.set i .idle)

end Steps

/-! ## The two windows -/

/-- The program's next command is one of these. -/
def nextIs {α : Type} (p : ApCmd → Bool) : ApM α → Bool
  | .ret _ => false
  | .call c _ => p c

/-- No station is there, and the task is not in the middle of a frame. -/
structure NoStation (s : System ι) : Prop where
  stations : s.vars.core.stations = fun _ => none
  task : nextIs ApCmd.isCore s.task = false

/-- The commands of a stop between its test of `s_running` and its return of the mutex. -/
def ApCmd.isClearing : ApCmd → Bool
  | setRunning _ | apLinkDown | sessionTake | sessionGive => true
  | clientState _ | clientStaIdx _ | lockedRemove _ | meStaDel _ => true
  | _ => false

/-- A stop has found `s_running` up and is still to go through the clients, or at it. -/
def Pending (s : System ι) : Prop :=
  ∃ i rest, s.caller i = .stopping rest ∧ nextIs ApCmd.isClearing rest = true

/-- A start clears the table when no station is there, and is refused when none is there or a stop
is about to clear them. -/
def Careful (s : System ι) : Option ι → Prop
  | none => True
  | some i => ∀ rest, s.caller i = .starting rest →
      (nextIs (· matches .lockedClear) rest = true → NoStation s) ∧
      (nextIs (· matches .setRunning false) rest = true → NoStation s ∨ Pending s)

/-! ## Where everyone is -/

seal apBuildBeacon sendFrame

/-- The task's turn, with what it has to keep while it holds the mutex. -/
inductive TaskAt (session : Option (Option ι)) (core : Core) : ApM Unit → Prop
  | idle : TaskAt session core (pure ())
  | take (frame : List UInt8) : TaskAt session core (dhcpServerTask frame)
  | test (frame : List UInt8) (hheld : session = some none) (hexact : Exact core) :
      TaskAt session core (readRunning >>= fun running =>
        handleIfRunning running frame >>= fun _ => sessionGive)
  | handle {rest : ApM Unit} (hheld : session = some none)
      (honly : Only (fun c => c.isCore = true) rest) (hwp : Wp lmac (fun _ => Exact) rest core) :
      TaskAt session core (rest >>= fun _ => sessionGive)

/-- The commands of a stop after the mutex. -/
def ApCmd.isLate : ApCmd → Bool
  | vif | apmStop _ => true
  | _ => false

/-- A stop of the caller `i`. -/
inductive StopAt (i : ι) (session : Option (Option ι)) (core : Core) : ApM Bool → Prop
  | check : StopAt i session core wifiApStop
  | lower : StopAt i session core
      (setRunning false >>= fun _ => act .apLinkDown >>= fun _ => clearSession)
  | linkDown : StopAt i session core (act .apLinkDown >>= fun _ => clearSession)
  | take : StopAt i session core clearSession
  | clear {rest : ApM Unit} (hheld : session = some (some i))
      (honly : Only (fun c => c.isDrop = true) rest) (hwp : Wp lmac (fun _ => Cleared) rest core) :
      StopAt i session core (rest >>= fun _ => sessionGive >>= fun _ => readVif >>= apmStop)
  | after {rest : ApM Bool} (honly : Only (fun c => c.isLate = true) rest) :
      StopAt i session core rest

/-- The commands of a start. -/
def ApCmd.isStart : ApCmd → Bool
  | running | setRunning _ | ensureIface | sessionInit | setBss _ | setVif _ | lockedClear => true
  | bss | setChannel _ | vif | apmStart _ _ _ _ _ | lockedSetBcmc _ | apLinkUp => true
  | _ => false

structure Inv (s : System ι) : Prop where
  task : TaskAt s.vars.session s.vars.core s.task
  starting : ∀ i rest, s.caller i = .starting rest → Only (fun c => c.isStart = true) rest
  stopping : ∀ i rest, s.caller i = .stopping rest → StopAt i s.vars.session s.vars.core rest
  exact : s.vars.session = none → Exact s.vars.core
  running : s.vars.running = false → NoStation s ∨ Pending s

section Places

variable {i : ι} {session session' : Option (Option ι)} {core core' : Core}

/-- While the task does not hold the mutex, it does not rely on the table. -/
theorem TaskAt.of_not_held {m : ApM Unit} (h : TaskAt session core m) (hheld : session ≠ some none) :
    TaskAt session' core' m ∧ nextIs ApCmd.isCore m = false := by
  cases h with
  | idle => exact ⟨.idle, rfl⟩
  | take frame => exact ⟨.take frame, rfl⟩
  | test _ h => exact absurd h hheld
  | handle h => exact absurd h hheld

theorem StopAt.of_not_held {m : ApM Bool} (h : StopAt i session core m)
    (hheld : session ≠ some (some i)) : StopAt i session' core' m := by
  cases h with
  | check => exact .check
  | lower => exact .lower
  | linkDown => exact .linkDown
  | take => exact .take
  | clear h => exact absurd h hheld
  | after honly => exact .after honly

/-- The table is cleared when no station is there. -/
theorem TaskAt.clear {m : ApM Unit} (h : TaskAt session core m) (hidle : nextIs ApCmd.isCore m = false)
    (hstations : core.stations = fun _ => none) :
    TaskAt session { core with table := apClientsClear } m := by
  have hexact := ((cleared_clear hstations).tracked (fun _ => True) fun _ => True).exact
  cases h with
  | idle => exact .idle
  | take frame => exact .take frame
  | test frame hheld => exact .test frame hheld hexact
  | @handle rest hheld honly =>
    cases rest with
    | ret => exact @TaskAt.handle _ _ _ (pure ()) hheld trivial hexact
    | call c k =>
      have hcore : c.isCore = false := hidle
      exact absurd honly.1 (by simp [hcore])

theorem cleared_of_isDrop {c : ApCmd} (hc : c.isDrop = true) {r : c.Answer} (h : Cleared core)
    (hdev : lmac c core r core') : Cleared core' := by
  cases c with
  | clientState | clientStaIdx =>
    obtain ⟨rfl, -⟩ := hdev
    exact h
  | lockedRemove i =>
    obtain rfl := hdev
    refine ⟨h.stations, fun j => ?_⟩
    simp only [Core.remove, apClientsRemove, Function.update_apply]
    split_ifs
    · rfl
    · exact h.table j
  | meStaDel staIdx =>
    obtain rfl := hdev
    refine ⟨?_, h.table⟩
    simp only [Core.delStation, h.stations]
    exact Function.update_eq_self staIdx _
  | _ => simp [ApCmd.isDrop] at hc

theorem StopAt.of_clear {m : ApM Bool} (h : StopAt i session core m)
    (hstations : core.stations = fun _ => none) :
    StopAt i session { core with table := apClientsClear } m := by
  cases h with
  | check => exact .check
  | lower => exact .lower
  | linkDown => exact .linkDown
  | take => exact .take
  | clear hheld honly =>
    refine .clear hheld honly (wp_of_only ?_ honly (cleared_clear hstations))
    exact fun c hc core r core' h hdev => cleared_of_isDrop hc h hdev
  | after honly => exact .after honly

theorem isClearing_of_isDrop {rest : ApM Unit} (h : Only (fun c => c.isDrop = true) rest) :
    nextIs ApCmd.isClearing (rest >>= fun _ => sessionGive >>= fun _ => readVif >>= apmStop) = true := by
  cases rest with
  | ret => rfl
  | call c k =>
    have hc : c.isDrop = true := h.1
    cases c <;> first | rfl | simp [ApCmd.isDrop] at hc

end Places

theorem start_confirmStart (config : ApConfig) (beacon : List UInt8) (timOft timLen : ℕ) :
    Only (fun c => c.isStart = true) (confirmStart config beacon timOft timLen) := by
  refine ⟨rfl, fun vif => ⟨rfl, fun cfm => ?_⟩⟩
  cases cfm with
  | none => exact ⟨rfl, fun _ => trivial⟩
  | some bcmcIdx => exact ⟨rfl, fun _ => ⟨rfl, fun _ => trivial⟩⟩

theorem start_beginStart (config : ApConfig) (bss : ApBss) (vif : UInt8) :
    Only (fun c => c.isStart = true) (beginStart config bss vif) := by
  refine ⟨rfl, fun _ => ⟨rfl, fun _ => ⟨rfl, fun _ => ⟨rfl, fun bss' => ?_⟩⟩⟩⟩
  refine only_ite (only_pure _) ⟨rfl, fun _ => ⟨rfl, fun _ => ?_⟩⟩
  exact start_confirmStart config _ _ _

theorem start_wifiApStart (config : ApConfig) :
    Only (fun c => c.isStart = true) (wifiApStart config) := by
  unfold wifiApStart
  split_ifs
  · exact only_pure _
  · exact only_pure _
  · refine ⟨rfl, fun running => only_ite (only_pure _) ⟨rfl, fun iface => ?_⟩⟩
    cases iface with
    | none => exact only_pure _
    | some found => exact ⟨rfl, fun ready => only_ite (start_beginStart _ _ _) (only_pure _)⟩

/-! ## One step -/

section Step

variable [DecidableEq ι] {s : System ι} {i : ι} {vars : Shared (Option ι)}

theorem caller_set {call : Call} (s : System ι) (i j : ι) :
    (s.set i call).caller j = if j = i then call else s.caller j :=
  Function.update_apply s.caller i call j

/-- The other callers' stops stay where they are. -/
theorem Pending.set {v : Shared (Option ι)} {call : Call} (h : Pending s)
    (hi : ∀ rest, s.caller i = .stopping rest → nextIs ApCmd.isClearing rest = false) :
    Pending ({ s with vars := v }.set i call) := by
  obtain ⟨j, rest, hj, hnext⟩ := h
  have hne : j ≠ i := by
    rintro rfl
    simp [hi rest hj] at hnext
  exact ⟨j, rest, by rw [caller_set, if_neg hne]; exact hj, hnext⟩

theorem pending_self {rest : ApM Bool} (h : nextIs ApCmd.isClearing rest = true) :
    Pending (s.set i (.stopping rest)) :=
  ⟨i, rest, by rw [caller_set, if_pos rfl], h⟩

omit [DecidableEq ι] in
theorem Inv.receive (h : Inv s) (frame : List UInt8) :
    Inv { s with task := dhcpServerTask frame } where
  task := .take frame
  starting := h.starting
  stopping := h.stopping
  exact := h.exact
  running hrunning := (h.running hrunning).imp_left fun hno => ⟨hno.stations, rfl⟩

omit [DecidableEq ι] in
/-- The task takes the mutex, tests the flag, answers the frame and gives the mutex back. -/
theorem Inv.taskStep (h : Inv s) {c : ApCmd} {k : c.Answer → ApM Unit} {r : c.Answer}
    (hat : s.task = .call c k) (hdev : shared none c s.vars r vars) :
    Inv { s with vars := vars, task := k r } := by
  have htask := h.task
  rw [hat] at htask
  generalize hm : Prog.call c k = m at htask
  cases htask with
  | idle => cases hm
  | take frame =>
    cases hm
    obtain ⟨hfree, rfl⟩ := hdev
    refine ⟨.test frame rfl (h.exact hfree), h.starting, ?_, nofun, ?_⟩
    · intro j rest hj
      exact (h.stopping j rest hj).of_not_held (by simp [hfree])
    · intro hrunning
      exact (h.running hrunning).imp_left fun hno => ⟨hno.stations, rfl⟩
  | test frame hheld hexact =>
    cases hm
    obtain ⟨rfl, rfl⟩ := hdev
    refine ⟨.handle hheld ?_ ?_, h.starting, h.stopping, h.exact, ?_⟩
    · exact only_ite (core_handleFrame frame) (only_pure _)
    · unfold handleIfRunning
      split_ifs
      · have htracked : Tracked (fun _ => True) (fun _ => True) s.vars.core :=
          ⟨hexact, fun _ _ => .inl trivial⟩
        exact (wp_handleFrame (fun _ _ => trivial) htracked).mono fun _ _ h => h.exact
      · exact hexact
    · intro hrunning
      refine (h.running hrunning).imp_left fun hno => ⟨hno.stations, ?_⟩
      rw [hrunning]
      rfl
  | @handle rest hheld honly hwp =>
    cases rest with
    | ret =>
      cases hm
      obtain rfl := hdev
      refine ⟨.idle, h.starting, ?_, fun _ => hwp, ?_⟩
      · intro j rest hj
        exact (h.stopping j rest hj).of_not_held (by simp [hheld])
      · intro hrunning
        exact (h.running hrunning).imp_left fun hno => ⟨hno.stations, rfl⟩
    | call d kd =>
      cases hm
      obtain ⟨core, hcore, rfl⟩ := (shared_of_isCore honly.1).mp hdev
      refine ⟨.handle hheld (honly.2 r) (hwp r core hcore), h.starting, ?_, ?_, ?_⟩
      · intro j rest hj
        exact (h.stopping j rest hj).of_not_held (by simp [hheld])
      · intro hfree
        simp [hheld] at hfree
      · intro hrunning
        rcases h.running hrunning with hno | hpending
        · have hidle := hno.task
          rw [hat] at hidle
          exact absurd honly.1 (by simp [show c.isCore = false from hidle])
        · exact .inr hpending

omit [DecidableEq ι] in
/-- What a start does to the table and the flag. -/
theorem shared_of_isStart {c : ApCmd} (hc : c.isStart = true) {r : c.Answer} {v v' : Shared (Option ι)}
    (hdev : shared (some i) c v r v') :
    v' = v ∨ (c = .lockedClear ∧ v' = { v with core := { v.core with table := apClientsClear } }) ∨
      ∃ on, c = .setRunning on ∧ v' = { v with running := on } := by
  cases c with
  | running => exact .inl hdev.1
  | setRunning on => exact .inr (.inr ⟨on, rfl, hdev⟩)
  | lockedClear =>
    obtain ⟨core, rfl, rfl⟩ := hdev
    exact .inr (.inl ⟨rfl, rfl⟩)
  | ensureIface | sessionInit | setBss | setVif | bss | setChannel | vif | apmStart
  | lockedSetBcmc | apLinkUp =>
    obtain ⟨core, rfl, rfl⟩ := hdev
    exact .inl rfl
  | _ => simp [ApCmd.isStart] at hc

/-- The other callers are where they were. -/
theorem Inv.starting_set {v : Shared (Option ι)} (h : Inv s) {call : Call}
    (hcall : ∀ rest, call = .starting rest → Only (fun c => c.isStart = true) rest) (j : ι)
    (rest : ApM Bool) (hj : ({ s with vars := v }.set i call).caller j = .starting rest) :
    Only (fun c => c.isStart = true) rest := by
  rw [caller_set] at hj
  split_ifs at hj with hji
  · exact hcall rest hj
  · exact h.starting j rest hj

theorem stopping_set {call : Call} {session : Option (Option ι)} {core : Core}
    (hcall : ∀ rest, call = .stopping rest → StopAt i session core rest)
    (hothers : ∀ j ≠ i, ∀ rest, s.caller j = .stopping rest → StopAt j session core rest) (j : ι)
    (rest : ApM Bool) (hj : (s.set i call).caller j = .stopping rest) :
    StopAt j session core rest := by
  rw [caller_set] at hj
  split_ifs at hj with hji
  · rw [hji]
    exact hcall rest hj
  · exact hothers j hji rest hj

/-- A caller begins or returns. -/
theorem Inv.call (h : Inv s) {call : Call}
    (hidle : ∀ rest, s.caller i = .stopping rest → nextIs ApCmd.isClearing rest = false)
    (hstart : ∀ rest, call = .starting rest → Only (fun c => c.isStart = true) rest)
    (hstop : ∀ rest, call = .stopping rest → rest = wifiApStop) : Inv (s.set i call) where
  task := h.task
  starting := h.starting_set (v := s.vars) hstart
  stopping := stopping_set (fun rest hrest => by rw [hstop rest hrest]; exact .check)
    fun j _ => h.stopping j
  exact := h.exact
  running hrunning := (h.running hrunning).imp (fun hno => ⟨hno.stations, hno.task⟩)
    fun hpending => hpending.set (v := s.vars) hidle

theorem Inv.startStep (h : Inv s) (hcareful : Careful s (some i)) {c : ApCmd}
    {k : c.Answer → ApM Bool} {r : c.Answer} (hat : s.caller i = .starting (.call c k))
    (hdev : shared (some i) c s.vars r vars) :
    Inv ({ s with vars := vars }.set i (.starting (k r))) := by
  have honly := h.starting i _ hat
  have hrest : ∀ rest, Call.starting (k r) = .starting rest → Only (fun c => c.isStart = true) rest := by
    rintro rest ⟨⟩
    exact honly.2 r
  have hnone : ∀ rest, s.caller i = .stopping rest → nextIs ApCmd.isClearing rest = false := by
    simp [hat]
  rcases shared_of_isStart honly.1 hdev with rfl | ⟨rfl, rfl⟩ | ⟨on, rfl, rfl⟩
  · refine ⟨h.task, h.starting_set (v := s.vars) hrest,
      stopping_set (s := { s with vars := s.vars }) nofun fun j _ => h.stopping j, h.exact, ?_⟩
    intro hrunning
    exact (h.running hrunning).imp (fun hno => ⟨hno.stations, hno.task⟩) fun hp => hp.set hnone
  · have hno := (hcareful _ hat).1 rfl
    refine ⟨h.task.clear hno.task hno.stations, h.starting_set hrest, stopping_set nofun ?_, ?_, ?_⟩
    · exact fun j _ rest hj => (h.stopping j rest hj).of_clear hno.stations
    · exact fun _ => ((cleared_clear hno.stations).tracked (fun _ => True) fun _ => True).exact
    · exact fun _ => .inl ⟨hno.stations, hno.task⟩
  · refine ⟨h.task, h.starting_set hrest, stopping_set nofun fun j _ => h.stopping j, h.exact, ?_⟩
    intro hrunning
    obtain rfl : on = false := hrunning
    exact ((hcareful _ hat).2 rfl).imp (fun hno => ⟨hno.stations, hno.task⟩) fun hp => hp.set hnone

/-- A stop that leaves the table and the mutex alone. -/
theorem Inv.stopQuiet (h : Inv s) {rest rest' : ApM Bool} (hat : s.caller i = .stopping rest)
    (hrest : StopAt i s.vars.session s.vars.core rest') (hcore : vars.core = s.vars.core)
    (hsession : vars.session = s.vars.session)
    (hrunning : vars.running = false → (s.vars.running = false ∧ nextIs ApCmd.isClearing rest = false) ∨
      nextIs ApCmd.isClearing rest' = true) :
    Inv ({ s with vars := vars }.set i (.stopping rest')) := by
  obtain ⟨core, running, session⟩ := vars
  dsimp only at hcore hsession hrunning
  subst hcore hsession
  refine ⟨h.task, h.starting_set nofun, stopping_set ?_ fun j _ => h.stopping j, h.exact, ?_⟩
  · rintro _ ⟨⟩
    exact hrest
  · intro hfalse
    rcases hrunning hfalse with ⟨hbefore, hnext⟩ | hnext
    · refine (h.running hbefore).imp (fun hno => ⟨hno.stations, hno.task⟩) fun hp => hp.set ?_
      simpa [hat] using hnext
    · exact .inr (pending_self hnext)

/-- The clients are gone when the mutex is given back. -/
theorem Inv.stopGives (h : Inv s) {rest' : ApM Bool}
    (hheld : s.vars.session = some (some i)) (hcleared : Cleared s.vars.core)
    (hrest : Only (fun c => c.isLate = true) rest') :
    Inv ({ s with vars := { s.vars with session := none } }.set i (.stopping rest')) := by
  have htask : TaskAt none s.vars.core s.task ∧ nextIs ApCmd.isCore s.task = false :=
    h.task.of_not_held (by simp [hheld])
  refine ⟨htask.1, h.starting_set nofun, stopping_set ?_ ?_, ?_, ?_⟩
  · rintro _ ⟨⟩
    exact .after hrest
  · intro j hj rest hstop
    exact (h.stopping j rest hstop).of_not_held (by simp [hheld, Ne.symm hj])
  · exact fun _ => (hcleared.tracked (fun _ => True) fun _ => True).exact
  · exact fun _ => .inl ⟨hcleared.stations, htask.2⟩

/-- A stop takes the mutex and goes through the clients. -/
theorem Inv.stopClears (h : Inv s) {next : ApM Unit} {core : Core}
    (hheld : s.vars.session = none ∨ s.vars.session = some (some i))
    (honly : Only (fun c => c.isDrop = true) next) (hwp : Wp lmac (fun _ => Cleared) next core) :
    Inv ({ s with vars := ⟨core, s.vars.running, some (some i)⟩ }.set i
      (.stopping (next >>= fun _ => sessionGive >>= fun _ => readVif >>= apmStop))) := by
  refine ⟨(h.task.of_not_held ?_).1, h.starting_set nofun, stopping_set ?_ ?_, nofun, ?_⟩
  · rcases hheld with hheld | hheld <;> simp [hheld]
  · rintro _ ⟨⟩
    exact .clear rfl honly hwp
  · intro j hj rest hstop
    refine (h.stopping j rest hstop).of_not_held ?_
    rcases hheld with hheld | hheld <;> simp [hheld, Ne.symm hj]
  · exact fun _ => .inr (pending_self (isClearing_of_isDrop honly))

theorem Inv.stopStep (h : Inv s) {c : ApCmd} {k : c.Answer → ApM Bool} {r : c.Answer}
    (hat : s.caller i = .stopping (.call c k)) (hdev : shared (some i) c s.vars r vars) :
    Inv ({ s with vars := vars }.set i (.stopping (k r))) := by
  have hplace := h.stopping i _ hat
  generalize hm : Prog.call c k = m at hplace
  cases hplace with
  | check =>
    cases hm
    obtain ⟨rfl, rfl⟩ := hdev
    refine h.stopQuiet hat ?_ rfl rfl fun hfalse => .inl ⟨hfalse, rfl⟩
    cases s.vars.running with
    | true => exact .lower
    | false => exact .after trivial
  | lower =>
    cases hm
    obtain rfl := hdev
    exact h.stopQuiet hat .linkDown rfl rfl fun _ => .inr rfl
  | linkDown =>
    cases hm
    obtain ⟨core, rfl, rfl⟩ := hdev
    exact h.stopQuiet hat .take rfl rfl fun _ => .inr rfl
  | take =>
    cases hm
    obtain ⟨hfree, rfl⟩ := hdev
    have htracked : Tracked (fun _ => True) (fun _ => True) s.vars.core :=
      ⟨h.exact hfree, fun _ _ => .inl trivial⟩
    refine h.stopClears (.inl hfree) (drop_clearClients _) ((wp_clearClients htracked ?_).mono ?_)
    · exact fun j hj => absurd (List.mem_finRange j) hj
    · exact fun _ _ hend => hend.1.exact.cleared hend.2
  | @clear rest hheld honly hwp =>
    cases rest with
    | ret =>
      cases hm
      obtain rfl := hdev
      exact h.stopGives hheld hwp ⟨rfl, fun _ => ⟨rfl, fun _ => trivial⟩⟩
    | call d kd =>
      cases hm
      obtain ⟨core, hcore, rfl⟩ := (shared_of_isCore (ApCmd.isCore_of_isDrop _ honly.1)).mp hdev
      rw [hheld]
      exact h.stopClears (.inr hheld) (honly.2 r) (hwp r core hcore)
  | after honly =>
    cases hm
    have hlate := honly.1
    have hsame : vars = s.vars ∧ ApCmd.isClearing c = false := by
      cases c with
      | vif | apmStop =>
        obtain ⟨core, rfl, rfl⟩ := hdev
        exact ⟨rfl, rfl⟩
      | _ => simp [ApCmd.isLate] at hlate
    obtain ⟨rfl, hnext⟩ := hsame
    exact h.stopQuiet hat (.after (honly.2 r)) rfl rfl fun hfalse => .inl ⟨hfalse, hnext⟩

theorem Inv.step {s' : System ι} {a : Option ι} (h : Inv s) (hcareful : Careful s a)
    (hstep : Step s a s') : Inv s' := by
  cases hstep with
  | receive frame => exact h.receive frame
  | task hat hdev => exact h.taskStep hat hdev
  | callStart config hidle =>
    refine h.call (by simp [hidle]) ?_ nofun
    rintro _ ⟨⟩
    exact start_wifiApStart config
  | callStop hidle =>
    refine h.call (by simp [hidle]) nofun ?_
    rintro _ ⟨⟩
    rfl
  | start hat hdev => exact h.startStep hcareful hat hdev
  | stop hat hdev => exact h.stopStep hat hdev
  | startReturns hat => exact h.call (by simp [hat]) nofun nofun
  | stopReturns hat => exact h.call (by simp [hat, nextIs]) nofun nofun

end Step

/-! ## The theorem -/

theorem Initial.inv {s : System ι} (h : Initial s) : Inv s where
  task := by rw [h.idle.1]; exact .idle
  starting i := by simp [h.idle.2 i]
  stopping i := by simp [h.idle.2 i]
  exact _ := by
    have hcleared : Cleared s.vars.core := ⟨h.stations, fun i => by rw [h.table]; rfl⟩
    exact (hcleared.tracked (fun _ => True) fun _ => True).exact
  running _ := .inl ⟨h.stations, by rw [h.idle.1]; rfl⟩

/-- In every run that keeps out of the two windows, no station is left when the flag is down and
nobody is at work. -/
theorem wifiAp_no_station_left [DecidableEq ι] {s : System ι} (h : Reachable Initial Step Careful s)
    (hidle : Idle s) (hrunning : s.vars.running = false) : s.vars.core.stations = fun _ => none := by
  have hinv : Inv s := by
    refine Reachable.invariant (fun _ hs => hs.inv) ?_ h
    exact fun _ _ _ hs hcareful hstep => hs.step hcareful hstep
  rcases hinv.running hrunning with hno | ⟨i, rest, hi, -⟩
  · exact hno.stations
  · rw [hidle.2 i] at hi
    cases hi

section Runs

variable [DecidableEq ι] {allowed : System ι → Option ι → Prop} {s : System ι} {i : ι}

omit [DecidableEq ι] in
theorem isStart_grantable {c : ApCmd} (hc : c.isStart = true) (v : Shared (Option ι)) :
    grantable c v = true := by
  cases c <;> first | rfl | simp [ApCmd.isStart] at hc

/-- A start goes on for `n` commands. The stations stay as they are. -/
theorem reachable_start (own : ApBss) (bcmc : Option UInt8) (n : ℕ) {m : ApM Bool}
    (honly : Only (fun c => c.isStart = true) m) {vars : Shared (Option ι)}
    (hallowed : ∀ vars' call, vars'.core.stations = vars.core.stations →
      allowed ({ s with vars := vars' }.set i call) (some i))
    (h : Reachable Initial Step allowed ({ s with vars := vars }.set i (.starting m))) :
    Reachable Initial Step allowed
      ({ s with vars := (advance (granting (some i) own bcmc) n m vars).2 }.set i
        (.starting (advance (granting (some i) own bcmc) n m vars).1)) := by
  induction n generalizing m vars with
  | zero => exact h
  | succ n ih =>
    cases m with
    | ret ok => exact h
    | call c k =>
      have hdev := shared_granting (some i) own bcmc c vars (isStart_grantable honly.1 vars)
      have hsame : (granting (some i) own bcmc c vars).2.core.stations = vars.core.stations := by
        rcases shared_of_isStart honly.1 hdev with hv | ⟨-, hv⟩ | ⟨_, -, hv⟩ <;> rw [hv]
      refine ih (honly.2 _) (fun vars' call hv => hallowed vars' call (hv.trans hsame)) ?_
      have hnext := h.step (hallowed vars _ rfl) (Step.start (by rw [caller_set, if_pos rfl]) hdev)
      simpa only [System.set, Function.update_idem] using hnext

/-- The task goes through one frame. -/
theorem reachable_frame (own : ApBss) (bcmc : Option UInt8) {m : ApM Unit} {vars : Shared (Option ι)}
    (hallowed : ∀ s, allowed s none)
    (h : Reachable Initial Step allowed { s with vars := vars, task := m })
    (hasks : AsksOnly (granting none own bcmc) grantable m vars = true) :
    Reachable Initial Step allowed
      { s with vars := (Prog.run (granting none own bcmc) m vars).2, task := pure () } := by
  induction m generalizing vars with
  | ret => exact h
  | call c k ih =>
    obtain ⟨hc, hrest⟩ := Bool.and_eq_true_iff.mp hasks
    exact ih _ (h.step (hallowed _) (Step.task rfl (shared_granting none own bcmc c vars hc))) hrest

/-- A stop goes through to its end. -/
theorem reachable_stop (own : ApBss) (bcmc : Option UInt8) {m : ApM Bool} {vars : Shared (Option ι)}
    (hallowed : ∀ s rest, s.caller i = .stopping rest → allowed s (some i))
    (h : Reachable Initial Step allowed ({ s with vars := vars }.set i (.stopping m)))
    (hasks : AsksOnly (granting (some i) own bcmc) grantable m vars = true) :
    Reachable Initial Step allowed
      ({ s with vars := (Prog.run (granting (some i) own bcmc) m vars).2 }.set i
        (.stopping (.ret (Prog.run (granting (some i) own bcmc) m vars).1))) := by
  induction m generalizing vars with
  | ret => exact h
  | call c k ih =>
    obtain ⟨hc, hrest⟩ := Bool.and_eq_true_iff.mp hasks
    have hat : ({ s with vars := vars }.set i (.stopping (.call c k))).caller i =
        .stopping (.call c k) := by rw [caller_set, if_pos rfl]
    have hnext := h.step (hallowed _ _ hat)
      (Step.stop hat (shared_granting (some i) own bcmc c vars hc))
    exact ih _ (by simpa only [System.set, Function.update_idem] using hnext) hrest

end Runs

/-! One caller, and an LMAC that answers `APM_START_REQ` with `bcmc` or refuses it. -/

def apInit : System Unit := ⟨⟨⟨apClientsClear, fun _ => none, []⟩, false, none⟩, pure (), fun _ => .idle⟩

theorem initial_apInit : Initial apInit := ⟨⟨rfl, fun _ => rfl⟩, rfl, rfl, rfl, rfl⟩

abbrev someConfig : ApConfig := ⟨ownBss.ssid, 6⟩

/-- The start after `n` commands, alone. -/
def startFor (bcmc : Option UInt8) (n : ℕ) : ApM Bool × Shared (Option Unit) :=
  advance (granting (some ()) ownBss bcmc) n (wifiApStart someConfig) apInit.vars

/-- The variables after the task has answered a frame. -/
def answered (frame : List UInt8) (vars : Shared (Option Unit)) : Shared (Option Unit) :=
  (Prog.run (granting none ownBss none) (dhcpServerTask frame) vars).2

/-- The start waits for the confirmation while a client authenticates and associates, is refused,
and lowers the flag. -/
def refusedLate : ApM Bool × Shared (Option Unit) :=
  advance (granting (some ()) ownBss none) 2 (startFor none 10).1
    (answered assocFrame (answered authFrame (startFor none 10).2))

theorem startFor_reachable {a : System Unit → Option Unit → Prop} (bcmc : Option UInt8) (n : ℕ)
    (hallowed : ∀ vars call, vars.core.stations = (fun _ => none) →
      a ({ apInit with vars := vars }.set () call) (some ())) :
    Reachable Initial Step a
      ({ apInit with vars := (startFor bcmc n).2 }.set () (.starting (startFor bcmc n).1)) := by
  refine reachable_start ownBss bcmc n (start_wifiApStart someConfig) hallowed ?_
  have hbegin : a apInit (some ()) := by
    have hsame : ({ apInit with vars := apInit.vars }.set () .idle) = apInit := by
      simp [System.set, apInit]
    exact hsame ▸ hallowed apInit.vars .idle rfl
  exact (Reachable.init initial_apInit).step hbegin (.callStart someConfig rfl)

def hasReturned : ApM Bool → Bool
  | .ret _ => true
  | .call _ _ => false

theorem eq_ret_of_hasReturned {m : ApM Bool} (h : hasReturned m = true) : ∃ ok, m = .ret ok := by
  cases m with
  | ret ok => exact ⟨ok, rfl⟩
  | call c k => simp [hasReturned] at h

/-- A client has authenticated and associated after the start. -/
def associated : Shared (Option Unit) :=
  answered assocFrame (answered authFrame (startFor (some 3) 13).2)

/-- The access point is stopped while the client is there. -/
def stopped : Shared (Option Unit) :=
  (Prog.run (granting (some ()) ownBss none) wifiApStop associated).2

theorem wifiAp_no_station_left_stopped : (associated.core.stations 0).isSome = true ∧
    stopped.running = false ∧ stopped.core.stations = fun _ => none := by
  have hrunning : stopped.running = false := by decide +kernel
  have hcareful : ∀ vars call, vars.core.stations = (fun _ => none) →
      Careful ({ apInit with vars := vars }.set () call) (some ()) := by
    intro vars call hvars rest _
    have hno : NoStation ({ apInit with vars := vars }.set () call) := ⟨hvars, rfl⟩
    exact ⟨fun _ => hno, fun _ => .inl hno⟩
  obtain ⟨ok, hret⟩ := eq_ret_of_hasReturned (m := (startFor (some 3) 13).1) (by decide +kernel)
  have hstart := startFor_reachable (some 3) 13 hcareful
  rw [hret] at hstart
  have hlast : Careful ({ apInit with vars := (startFor (some 3) 13).2 }.set ()
      (.starting (.ret ok))) (some ()) := by
    intro rest hrest
    obtain ⟨⟩ : Call.starting (.ret ok) = .starting rest := hrest
    exact ⟨nofun, nofun⟩
  have hidle : ∀ (vars : Shared (Option Unit)) (call : Call),
      (({ apInit with vars := vars }.set () call).set () .idle) = { apInit with vars := vars } := by
    intro vars call
    simp [System.set, apInit]
  have hstarted := hstart.step hlast (@Step.startReturns _ _ _ _ ok rfl)
  rw [hidle] at hstarted
  have hauth := reachable_frame ownBss none (fun _ => trivial)
    (hstarted.step (l := none) trivial (.receive authFrame rfl)) (by decide +kernel)
  have hassoc : Reachable Initial Step Careful { apInit with vars := associated } :=
    reachable_frame ownBss none (fun _ => trivial)
      (hauth.step (l := none) trivial (.receive assocFrame rfl)) (by decide +kernel)
  have hstop := hassoc.step (l := some ()) (fun rest hrest => by cases hrest) (.callStop rfl)
  have hstopping : ∀ (s : System Unit) rest, s.caller () = .stopping rest → Careful s (some ()) := by
    intro s rest hat rest' hrest'
    rw [hat] at hrest'
    cases hrest'
  have hdone := reachable_stop ownBss none hstopping hstop (by decide +kernel)
  have hend := hdone.step (hstopping _ _ rfl) (.stopReturns rfl)
  rw [hidle] at hend
  exact ⟨by decide +kernel, hrunning, wifiAp_no_station_left hend ⟨rfl, fun _ => rfl⟩ hrunning⟩

/-- The client that came before the confirmation is still in the LMAC. -/
theorem wifiAp_station_left : ¬ ∀ s : System Unit, Reachable Initial Step (fun _ _ => True) s →
    Idle s → s.vars.running = false → s.vars.core.stations = fun _ => none := by
  intro hclaim
  have hstart := startFor_reachable (a := fun _ _ => True) none 10 fun _ _ _ => trivial
  have hauth := reachable_frame ownBss none (fun _ => trivial)
    (hstart.step (l := none) trivial (.receive authFrame rfl)) (by decide +kernel)
  have hassoc := reachable_frame ownBss none (fun _ => trivial)
    (hauth.step (l := none) trivial (.receive assocFrame rfl)) (by decide +kernel)
  have honly := only_advance (granting (some ()) ownBss none) 10 (start_wifiApStart someConfig)
    apInit.vars
  have hrefused := reachable_start (s := apInit) (i := ()) ownBss none 2 honly
    (fun _ _ _ => trivial) hassoc
  obtain ⟨ok, hret⟩ := eq_ret_of_hasReturned (m := refusedLate.1) (by decide +kernel)
  have hend := hrefused.step (l := some ()) trivial
    (@Step.startReturns _ _ _ _ ok (by rw [caller_set, if_pos rfl]; exact congrArg _ hret))
  have hnone := hclaim _ hend ⟨rfl, fun _ => rfl⟩ (show refusedLate.2.running = false by decide +kernel)
  have hsome : (refusedLate.2.core.stations 0).isSome = true := by decide +kernel
  have hgone : refusedLate.2.core.stations 0 = none := congrFun hnone 0
  simp [hgone] at hsome

end BekenCam.Ap
