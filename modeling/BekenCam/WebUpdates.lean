import BekenCam.WebSettings

/-!
# Updates that are not lost

A handler writes back a whole config that it took before. An update is lost when another one is
written between its snapshot and its own write, and a trial network gets into the store when the
other worker saves or takes a snapshot while it is tried. In the runs without these two, both bodies
stay, and a setup that fails leaves nothing behind.
-/
namespace BekenCam.Settings.Web

open FlashKv
open Http (ascii)

/-! ## The steps that lose nothing -/

/-- A config that was taken before and is yet to be written back. -/
def Pc.pending : Pc → Bool
  | .apply _ | .off _ _ | .trial _ _ | .wait _ _ | .restore _ => true
  | _ => false

/-- The setup has the trial, or the config without the old station, in `g_config`. -/
def Pc.trying : Pc → Bool
  | .trial backup _ => backup.staEnabled
  | .wait _ _ | .restore _ => true
  | _ => false

/-- No body is applied under a pending snapshot, and nothing is taken or stored of a setup that is
being tried. -/
def Pc.careful (pc other : Pc) : Bool :=
  match pc with
  | .start | .save | .keep => !other.trying
  | .apply _ => !other.pending
  | _ => true

def careful (s : State) (l : Bool × Bool) : Bool := (s.pc l.1).careful (s.pc !l.1)

/-! ## No update is lost -/

/-- What the other request can have made of the settings. -/
def Clean (other : Request) (config₀ config : Config) : Prop :=
  config = config₀ ∨
    match other.handler with
    | .serveSettingsPost => configFromJson other.body config₀ = some config
    | .serveSetup => ∃ trial, setupTrial other.body config₀ = some trial ∧
      config = { trial with apEnabled := false }

/-- Two updates of different fields are both there, in `g_config` and in the store. A setup that
fails leaves the update that completed beside it in both, and the store as it was or with what the
other request has made of the settings. -/
structure NoLostUpdate (requests : Bool → Request) (config₀ : Config)
    (store₀ : Key → Option (List UInt8)) (s : State) : Prop where
  posts : (∀ i, (requests i).handler = .serveSettingsPost ∧ s.pc i = .done 200) →
    List.Disjoint (named (requests false).body) (named (requests true).body) →
      s.store = stored s.config ∧ ∀ i, Holds (requests i).body s.config
  setup : ∀ i, (requests i).handler = .serveSetup → s.pc i = .done 504 →
    ((requests !i).handler = .serveSettingsPost → s.pc (!i) = .done 200 →
      s.store = stored s.config ∧ Holds (requests !i).body s.config) ∧
    (s.store = store₀ ∨ ∃ config, Clean (requests !i) config₀ config ∧ s.store = stored config)

/-! ## The handlers -/

/-- Where a handler can be. -/
def Pc.Of (handler : Handler) : Pc → Prop
  | .start | .done _ => True
  | .apply _ | .save => handler = .serveSettingsPost
  | .off backup _ => handler = .serveSetup ∧ backup.staEnabled = true
  | .trial _ _ | .wait _ _ | .restore _ | .keep => handler = .serveSetup

def Typed (requests : Bool → Request) (s : State) : Prop :=
  ∀ i, (s.pc i).Of (requests i).handler

variable {requests : Bool → Request} {s s' : State} {config₀ : Config}
  {store₀ : Key → Option (List UInt8)}

theorem Moves.of {request : Request} {config config' : Config}
    {store store' : Key → Option (List UInt8)} {pc pc' : Pc}
    (h : Moves request config store pc pc' config' store') (hof : pc.Of request.handler) :
    pc'.Of request.handler := by
  cases h with
  | refuse => trivial
  | snapshot next hpost => exact hpost
  | backupUp trial hsetup _ hup => exact ⟨hsetup, hup⟩
  | backupDown trial hsetup => exact hsetup
  | apply => exact hof
  | save => trivial
  | off => exact hof.1
  | trial => exact hof
  | connect => exact hof
  | giveUp => exact hof
  | restore => trivial
  | keep => trivial

theorem Typed.step (h : Typed requests s) {l : Bool × Bool}
    (hstep : step requests s l = some s') : Typed requests s' := by
  obtain ⟨i, connected⟩ := l
  obtain ⟨hmoves, hother⟩ := step_cases hstep
  intro j
  rcases Bool.eq_or_eq_not j i with rfl | rfl
  · exact hmoves.of (h j)
  · rw [hother]
    exact h (!i)

/-! ## Posts beside each other, and beside a setup that fails -/

/-- The config that is there when the setup has failed. -/
def Pc.settled (config : Config) : Pc → Config
  | .off backup _ | .trial backup _ | .wait backup _ | .restore backup => backup
  | _ => config

theorem Pc.settled_of_not_pending {pc : Pc} (h : pc.pending = false) (config : Config) :
    pc.settled config = config := by
  cases pc <;> first | rfl | cases h

/-- The body has been applied. -/
def Pc.applied : Pc → Prop
  | .save => True
  | .done status => status = 200
  | _ => False

/-- The setup has joined the trial network. -/
def Joined (request : Request) (pc : Pc) : Prop :=
  request.handler = .serveSetup ∧ (pc = .keep ∨ pc = .done 200)

/-- What a post has applied stays, and what it has stored is up to date. -/
structure Kept (mine other : Request) (pc otherPc : Pc) (config : Config)
    (store : Key → Option (List UInt8)) : Prop where
  parsed : ∀ next, pc = .apply next → Holds mine.body next ∧
    (other.handler = .serveSettingsPost → otherPc.applied → Holds other.body next)
  applied : pc.applied → Holds mine.body (otherPc.settled config)
  stored : pc = .done 200 → otherPc ≠ .save → store = stored (otherPc.settled config)
  settled : otherPc.trying = false → otherPc.settled config = config

section Kept

variable {mine other : Request} {pc pc' otherPc otherPc' : Pc} {config config' : Config}
  {store store' : Key → Option (List UInt8)}

/-- The step of the post itself. -/
theorem Kept.own (h : Kept mine other pc otherPc config store)
    (hother : other.handler = .serveSettingsPost → Kept other mine otherPc pc config store)
    (hdisjoint : other.handler = .serveSettingsPost →
      List.Disjoint (named other.body) (named mine.body))
    (hpost : mine.handler = .serveSettingsPost) (hof : pc.Of mine.handler)
    (hcareful : pc.careful otherPc = true)
    (hmoves : Moves mine config store pc pc' config' store') :
    Kept mine other pc' otherPc config' store' := by
  cases hmoves with
  | refuse status hstatus =>
    refine ⟨nofun, fun happlied => ?_, fun hdone => ?_, h.settled⟩
    · have hok : status = 200 := happlied
      omega
    · have hok : status = 200 := Pc.done.inj hdone
      omega
  | snapshot next hhandler hnext =>
    refine ⟨?_, nofun, nofun, h.settled⟩
    rintro next' ⟨rfl⟩
    refine ⟨holds_configFromJson hnext, fun hboth happlied => ?_⟩
    exact ((hother hboth).applied happlied).configFromJson (hdisjoint hboth) hnext
  | backupUp trial hsetup => exact absurd (hpost.symm.trans hsetup) nofun
  | backupDown trial hsetup => exact absurd (hpost.symm.trans hsetup) nofun
  | apply =>
    have hfree : otherPc.pending = false := by simpa [Pc.careful] using hcareful
    have hsettled := Pc.settled_of_not_pending hfree config'
    refine ⟨nofun, fun _ => ?_, nofun, fun _ => hsettled⟩
    rw [hsettled]
    exact (h.parsed config' rfl).1
  | save =>
    have hnot : otherPc.trying = false := by simpa [Pc.careful] using hcareful
    refine ⟨nofun, fun _ => h.applied trivial, fun _ _ => ?_, h.settled⟩
    rw [h.settled hnot]
  | off => exact absurd (hpost.symm.trans hof.1) nofun
  | trial => exact absurd (hpost.symm.trans hof) nofun
  | connect => exact absurd (hpost.symm.trans hof) nofun
  | giveUp => exact absurd (hpost.symm.trans hof) nofun
  | restore => exact absurd (hpost.symm.trans hof) nofun
  | keep => exact absurd (hpost.symm.trans hof) nofun

/-- A step of the other worker. -/
theorem Kept.beside (h : Kept mine other pc otherPc config store)
    (hother : other.handler = .serveSettingsPost → Kept other mine otherPc pc config store)
    (hpost : mine.handler = .serveSettingsPost) (hof : otherPc.Of other.handler)
    (hjoined : ¬Joined other otherPc') (hcareful : otherPc.careful pc = true)
    (hmoves : Moves other config store otherPc otherPc' config' store') :
    Kept mine other pc otherPc' config' store' := by
  cases hmoves with
  | refuse status hstatus =>
    refine ⟨fun next hnext => ⟨(h.parsed next hnext).1, fun _ happlied => ?_⟩, h.applied,
      fun hdone _ => h.stored hdone nofun, fun _ => rfl⟩
    have hok : status = 200 := happlied
    omega
  | snapshot next =>
    exact ⟨fun next hnext => ⟨(h.parsed next hnext).1, nofun⟩, h.applied,
      fun hdone _ => h.stored hdone nofun, fun _ => rfl⟩
  | backupUp trial =>
    exact ⟨fun next hnext => ⟨(h.parsed next hnext).1, nofun⟩, h.applied,
      fun hdone _ => h.stored hdone nofun, fun _ => rfl⟩
  | backupDown trial =>
    exact ⟨fun next hnext => ⟨(h.parsed next hnext).1, nofun⟩, h.applied,
      fun hdone _ => h.stored hdone nofun, fun _ => rfl⟩
  | apply =>
    have hfree : pc.pending = false := by simpa [Pc.careful] using hcareful
    refine ⟨?_, fun happlied => ?_, fun _ hsaved => absurd rfl hsaved, fun _ => rfl⟩
    · rintro next' rfl
      cases hfree
    · exact ((hother hof).parsed config' rfl).2 hpost happlied
  | save =>
    refine ⟨fun next hnext => ⟨(h.parsed next hnext).1, fun hhandler _ => ?_⟩, h.applied,
      fun _ _ => rfl, fun _ => rfl⟩
    exact (h.parsed next hnext).2 hhandler trivial
  | off backup trial =>
    refine ⟨fun next hnext => ⟨(h.parsed next hnext).1, nofun⟩, h.applied,
      fun hdone _ => h.stored hdone nofun, fun hnot => ?_⟩
    exact absurd (hof.2.symm.trans hnot) nofun
  | trial backup trial =>
    exact ⟨fun next hnext => ⟨(h.parsed next hnext).1, nofun⟩, h.applied,
      fun hdone _ => h.stored hdone nofun, nofun⟩
  | connect => exact absurd ⟨hof, Or.inl rfl⟩ hjoined
  | giveUp backup trial =>
    exact ⟨fun next hnext => ⟨(h.parsed next hnext).1, nofun⟩, h.applied,
      fun hdone _ => h.stored hdone nofun, nofun⟩
  | restore backup =>
    refine ⟨fun next hnext => ⟨(h.parsed next hnext).1, fun hhandler => ?_⟩, h.applied,
      fun hdone _ => h.stored hdone nofun, fun _ => rfl⟩
    exact absurd (hhandler.symm.trans hof) nofun
  | keep => exact absurd ⟨hof, Or.inr rfl⟩ hjoined

end Kept

/-! ## A setup that fails -/

def Pc.backup : Pc → Option Config
  | .off backup _ | .trial backup _ | .wait backup _ | .restore backup => some backup
  | _ => none

/-- What the other request is at has been read into the settings as they were. -/
def FromStart (other : Request) (config₀ : Config) : Pc → Prop
  | .apply next => configFromJson other.body config₀ = some next
  | .off backup trial | .trial backup trial | .wait backup trial =>
    backup = config₀ ∧ setupTrial other.body config₀ = some trial
  | .restore backup => backup = config₀
  | _ => True

/-- A setup that has not joined its network leaves no trace of it outside its trial. -/
structure Untouched (other : Request) (config₀ : Config) (store₀ : Key → Option (List UInt8))
    (pc otherPc : Pc) (config : Config) (store : Key → Option (List UInt8)) : Prop where
  clean : pc.trying = false → otherPc.trying = false → Clean other config₀ config
  backup : ∀ backup, pc.backup = some backup → Clean other config₀ backup
  start : otherPc = .start → (pc.trying = false → config = config₀) ∧
    ∀ backup, pc.backup = some backup → backup = config₀
  fromStart : FromStart other config₀ otherPc
  store : store = store₀ ∨ ∃ config, Clean other config₀ config ∧ store = stored config

section Untouched

variable {mine other : Request} {pc pc' otherPc otherPc' : Pc} {config config' : Config}
  {store store' : Key → Option (List UInt8)}

/-- The step of the setup itself. -/
theorem Untouched.own (h : Untouched other config₀ store₀ pc otherPc config store)
    (hsetup : mine.handler = .serveSetup) (hof : pc.Of mine.handler) (hjoined : ¬Joined mine pc')
    (hcareful : pc.careful otherPc = true)
    (hmoves : Moves mine config store pc pc' config' store') :
    Untouched other config₀ store₀ pc' otherPc config' store' := by
  cases hmoves with
  | refuse =>
    refine ⟨fun _ => h.clean rfl, nofun, fun hstart => ?_, h.fromStart, h.store⟩
    exact ⟨fun _ => (h.start hstart).1 rfl, nofun⟩
  | snapshot next hpost => exact absurd (hpost.symm.trans hsetup) nofun
  | backupUp trial | backupDown trial =>
    have hnot : otherPc.trying = false := by simpa [Pc.careful] using hcareful
    refine ⟨fun _ => h.clean rfl, ?_, fun hstart => ⟨fun _ => (h.start hstart).1 rfl, ?_⟩,
      h.fromStart, h.store⟩
    · rintro backup ⟨rfl⟩
      exact h.clean rfl hnot
    · rintro backup ⟨rfl⟩
      exact (h.start hstart).1 rfl
  | apply => exact absurd (hof.symm.trans hsetup) nofun
  | save => exact absurd (hof.symm.trans hsetup) nofun
  | off backup trial =>
    have htrying : ¬backup.staEnabled = false := by simp [hof.2]
    refine ⟨fun hnot => absurd hnot htrying, h.backup, fun hstart => ?_, h.fromStart, h.store⟩
    exact ⟨fun hnot => absurd hnot htrying, (h.start hstart).2⟩
  | trial =>
    exact ⟨nofun, h.backup, fun hstart => ⟨nofun, (h.start hstart).2⟩, h.fromStart, h.store⟩
  | connect => exact absurd ⟨hsetup, Or.inl rfl⟩ hjoined
  | giveUp =>
    exact ⟨nofun, h.backup, fun hstart => ⟨nofun, (h.start hstart).2⟩, h.fromStart, h.store⟩
  | restore =>
    refine ⟨fun _ _ => h.backup config' rfl, nofun, fun hstart => ?_, h.fromStart, h.store⟩
    exact ⟨fun _ => (h.start hstart).2 config' rfl, nofun⟩
  | keep => exact absurd ⟨hsetup, Or.inr rfl⟩ hjoined

/-- A step of the other worker. -/
theorem Untouched.beside (h : Untouched other config₀ store₀ pc otherPc config store)
    (hof : otherPc.Of other.handler) (hcareful : otherPc.careful pc = true)
    (hmoves : Moves other config store otherPc otherPc' config' store') :
    Untouched other config₀ store₀ pc otherPc' config' store' := by
  cases hmoves with
  | refuse => exact ⟨fun hnot _ => h.clean hnot rfl, h.backup, nofun, trivial, h.store⟩
  | snapshot next hpost hnext =>
    have hnot : pc.trying = false := by simpa [Pc.careful] using hcareful
    refine ⟨fun hnot _ => h.clean hnot rfl, h.backup, nofun, ?_, h.store⟩
    rwa [(h.start rfl).1 hnot] at hnext
  | backupUp trial hsetup htrial =>
    have hnot : pc.trying = false := by simpa [Pc.careful] using hcareful
    have hconfig := (h.start rfl).1 hnot
    refine ⟨fun hnot _ => h.clean hnot rfl, h.backup, nofun, ⟨hconfig, ?_⟩, h.store⟩
    rwa [hconfig] at htrial
  | backupDown trial hsetup htrial =>
    have hnot : pc.trying = false := by simpa [Pc.careful] using hcareful
    have hconfig := (h.start rfl).1 hnot
    refine ⟨fun hnot _ => h.clean hnot rfl, h.backup, nofun, ⟨hconfig, ?_⟩, h.store⟩
    rwa [hconfig] at htrial
  | apply =>
    have hclean : Clean other config₀ config' := by
      have hnext := h.fromStart
      right
      rw [hof]
      exact hnext
    exact ⟨fun _ _ => hclean, h.backup, nofun, trivial, h.store⟩
  | save =>
    have hnot : pc.trying = false := by simpa [Pc.careful] using hcareful
    have hclean := h.clean hnot rfl
    exact ⟨fun _ _ => hclean, h.backup, nofun, trivial, Or.inr ⟨config, hclean, rfl⟩⟩
  | off backup trial =>
    refine ⟨fun _ hnot => ?_, h.backup, nofun, h.fromStart, h.store⟩
    exact absurd (hof.2.symm.trans hnot) nofun
  | trial => exact ⟨fun _ => nofun, h.backup, nofun, h.fromStart, h.store⟩
  | connect backup trial =>
    have hclean : Clean other config₀ { trial with apEnabled := false } := by
      have htrial := h.fromStart.2
      right
      rw [hof]
      exact ⟨trial, htrial, rfl⟩
    exact ⟨fun _ _ => hclean, h.backup, nofun, trivial, h.store⟩
  | giveUp => exact ⟨fun _ => nofun, h.backup, nofun, h.fromStart.1, h.store⟩
  | restore => exact ⟨fun _ _ => Or.inl h.fromStart, h.backup, nofun, trivial, h.store⟩
  | keep =>
    have hnot : pc.trying = false := by simpa [Pc.careful] using hcareful
    have hclean := h.clean hnot rfl
    exact ⟨fun _ _ => hclean, h.backup, nofun, trivial, Or.inr ⟨config, hclean, rfl⟩⟩

end Untouched

/-! ## Runs -/

theorem Moves.joined {request : Request} {config config' : Config}
    {store store' : Key → Option (List UInt8)} {pc pc' : Pc}
    (h : Moves request config store pc pc' config' store') (hjoined : Joined request pc) :
    Joined request pc' := by
  obtain ⟨hsetup, rfl | rfl⟩ := hjoined
  · cases h
    exact ⟨hsetup, Or.inr rfl⟩
  · cases h

structure Safe (requests : Bool → Request) (config₀ : Config)
    (store₀ : Key → Option (List UInt8)) (s : State) : Prop where
  typed : Typed requests s
  kept : ∀ i, (requests i).handler = .serveSettingsPost → ¬Joined (requests !i) (s.pc !i) →
    Kept (requests i) (requests !i) (s.pc i) (s.pc !i) s.config s.store
  untouched : ∀ i, (requests i).handler = .serveSetup → ¬Joined (requests i) (s.pc i) →
    Untouched (requests !i) config₀ store₀ (s.pc i) (s.pc !i) s.config s.store

theorem safe_init : Safe requests config₀ store₀ (State.init config₀ store₀) where
  typed _ := trivial
  kept _ _ _ := ⟨nofun, nofun, nofun, fun _ => rfl⟩
  untouched _ _ _ := ⟨fun _ _ => Or.inl rfl, nofun, fun _ => ⟨fun _ => rfl, nofun⟩, trivial,
    Or.inl rfl⟩

/-- The bodies of two posts name different fields. -/
def DisjointPosts (requests : Bool → Request) : Prop :=
  (∀ i, (requests i).handler = .serveSettingsPost) →
    List.Disjoint (named (requests false).body) (named (requests true).body)

theorem DisjointPosts.named (h : DisjointPosts requests) {i : Bool}
    (hpost : (requests i).handler = .serveSettingsPost)
    (hother : (requests !i).handler = .serveSettingsPost) :
    List.Disjoint (named (requests !i).body) (named (requests i).body) := by
  have hboth : ∀ j, (requests j).handler = .serveSettingsPost := by
    intro j
    rcases Bool.eq_or_eq_not j i with rfl | rfl
    · exact hpost
    · exact hother
  cases i with
  | false => exact (h hboth).symm
  | true => exact h hboth

theorem Safe.kept_step (h : Safe requests config₀ store₀ s) (hdisjoint : DisjointPosts requests)
    {l : Bool × Bool} (hcareful : careful s l = true) (hstep : step requests s l = some s')
    (j : Bool) (hpost : (requests j).handler = .serveSettingsPost)
    (hnot : ¬Joined (requests !j) (s'.pc !j)) :
    Kept (requests j) (requests !j) (s'.pc j) (s'.pc !j) s'.config s'.store := by
  obtain ⟨i, connected⟩ := l
  obtain ⟨hmoves, hother⟩ := step_cases hstep
  have hposts : ∀ k, (requests !k).handler = .serveSettingsPost →
      (requests k).handler = .serveSettingsPost →
        Kept (requests !k) (requests k) (s.pc !k) (s.pc k) s.config s.store := by
    intro k hpost' hpost
    have hkept := h.kept (!k) hpost'
    rw [Bool.not_not] at hkept
    exact hkept fun hjoined => absurd (hpost.symm.trans hjoined.1) nofun
  rcases Bool.eq_or_eq_not j i with rfl | rfl
  · rw [hother] at hnot ⊢
    exact (h.kept j hpost hnot).own (fun hpost' => hposts j hpost' hpost) (hdisjoint.named hpost)
      hpost (h.typed j) hcareful hmoves
  · rw [hother]
    rw [Bool.not_not] at hnot ⊢
    have hkept := h.kept (!i) hpost
    rw [Bool.not_not] at hkept
    refine (hkept fun hjoined => hnot (hmoves.joined hjoined)).beside (fun hpost' => ?_) hpost
      (h.typed i) hnot hcareful hmoves
    exact h.kept i hpost' fun hjoined => absurd (hpost.symm.trans hjoined.1) nofun

theorem Safe.untouched_step (h : Safe requests config₀ store₀ s)
    {l : Bool × Bool} (hcareful : careful s l = true) (hstep : step requests s l = some s')
    (j : Bool) (hsetup : (requests j).handler = .serveSetup)
    (hnot : ¬Joined (requests j) (s'.pc j)) :
    Untouched (requests !j) config₀ store₀ (s'.pc j) (s'.pc !j) s'.config s'.store := by
  obtain ⟨i, connected⟩ := l
  obtain ⟨hmoves, hother⟩ := step_cases hstep
  rcases Bool.eq_or_eq_not j i with rfl | rfl
  · rw [hother]
    exact (h.untouched j hsetup fun hjoined => hnot (hmoves.joined hjoined)).own hsetup
      (h.typed j) hnot hcareful hmoves
  · rw [hother] at hnot ⊢
    have huntouched := h.untouched (!i) hsetup hnot
    rw [Bool.not_not] at huntouched ⊢
    exact huntouched.beside (h.typed i) hcareful hmoves

theorem Safe.step (h : Safe requests config₀ store₀ s) (hdisjoint : DisjointPosts requests)
    {l : Bool × Bool} (hcareful : careful s l = true) (hstep : step requests s l = some s') :
    Safe requests config₀ store₀ s' where
  typed := h.typed.step hstep
  kept := h.kept_step hdisjoint hcareful hstep
  untouched := h.untouched_step hcareful hstep

theorem Safe.noLostUpdate (h : Safe requests config₀ store₀ s) :
    NoLostUpdate requests config₀ store₀ s where
  posts hdone _ := by
    have hkept : ∀ i, Kept (requests i) (requests !i) (s.pc i) (s.pc !i) s.config s.store :=
      fun i => h.kept i (hdone i).1 fun hjoined => absurd ((hdone !i).1.symm.trans hjoined.1) nofun
    refine ⟨?_, fun i => ?_⟩
    · have hstored := (hkept false).stored (hdone false).2
      rw [(hdone !false).2] at hstored
      exact hstored nofun
    · have happlied := (hkept i).applied
      rw [(hdone i).2, (hdone !i).2] at happlied
      exact happlied rfl
  setup i hsetup hfailed := by
    have hnot : ¬Joined (requests i) (s.pc i) := by
      rw [hfailed]
      rintro ⟨-, hjoined | hjoined⟩
      · cases hjoined
      · cases hjoined
    refine ⟨fun hpost hdone => ?_, (h.untouched i hsetup hnot).store⟩
    have hfree : ¬Joined (requests i) (.done 504) := hfailed ▸ hnot
    have hkept := h.kept (!i) hpost
    rw [Bool.not_not, hfailed, hdone] at hkept
    exact ⟨(hkept hfree).stored rfl nofun, (hkept hfree).applied rfl⟩

/-- What two requests do to the settings is not lost, in any order of their steps, when neither
applies its body under the other's snapshot, and no snapshot is taken and nothing stored while the
other's setup is being tried. -/
theorem settings_updates_kept {labels : List (Bool × Bool)}
    (hcareful : Within (step requests) (fun s l => careful s l = true)
      (State.init config₀ store₀) labels)
    (hrun : runSteps (step requests) (State.init config₀ store₀) labels = some s) :
    NoLostUpdate requests config₀ store₀ s := by
  by_cases hdisjoint : DisjointPosts requests
  · have hsafe : Safe requests config₀ store₀ s :=
      invariant_of_within (fun _ _ _ h hok hstep => h.step hdisjoint hok hstep) safe_init
        hcareful hrun
    exact hsafe.noLostUpdate
  · obtain ⟨hposts, hnamed⟩ := Classical.not_imp.mp hdisjoint
    exact ⟨fun _ hnamed' => absurd hnamed' hnamed,
      fun i hsetup => absurd ((hposts i).symm.trans hsetup) nofun⟩

/-! ## Runs of two requests -/

def ledOff : Request where
  handler := .serveSettingsPost
  body := ascii "\x7b\"led_enabled\":false\x7d"

def telnetOff : Request where
  handler := .serveSettingsPost
  body := ascii "\x7b\"telnet_enabled\":false\x7d"

def joinGuest : Request where
  handler := .serveSetup
  body := ascii "\x7b\"sta_ssid\":\"guest\"\x7d"

def beside (first second : Request) : Bool → Request
  | false => first
  | true => second

/-- The store before the first `config_save`. -/
def noStore : Key → Option (List UInt8) := fun _ => none

/-- The light is switched off before a setup that fails. -/
theorem settings_updates_kept_led :
    ∃ s, runSteps (step (beside ledOff joinGuest)) (State.init firstConfig noStore)
        [(false, true), (false, true), (false, true), (true, true), (true, true), (true, false),
          (true, false)] = some s ∧
      s.pc false = .done 200 ∧ s.pc true = .done 504 ∧
      NoLostUpdate (beside ledOff joinGuest) firstConfig noStore s := by
  have hpcs : (runSteps (step (beside ledOff joinGuest)) (State.init firstConfig noStore)
      [(false, true), (false, true), (false, true), (true, true), (true, true), (true, false),
        (true, false)]).map (fun s => (s.pc false, s.pc true)) =
      some (.done 200, .done 504) := by decide +kernel
  obtain ⟨s, hrun, hdone⟩ := Option.map_eq_some_iff.mp hpcs
  obtain ⟨hpost, hsetup⟩ := Prod.mk.inj hdone
  exact ⟨s, hrun, hpost, hsetup, settings_updates_kept (by decide +kernel) hrun⟩

/-- Both posts take their snapshot first: the light stays on. A post takes its snapshot of a setup
that is being tried, and stores it: the guest network is in the store, and the light stays on. -/
theorem settings_updates_lost :
    (∃ s, runSteps (step (beside ledOff telnetOff)) (State.init firstConfig noStore)
        [(false, true), (true, true), (false, true), (true, true), (false, true), (true, true)] =
          some s ∧
      ¬NoLostUpdate (beside ledOff telnetOff) firstConfig noStore s) ∧
    ∃ s, runSteps (step (beside ledOff joinGuest)) (State.init firstConfig noStore)
        [(true, true), (true, true), (false, true), (false, true), (false, true), (true, false),
          (true, false)] = some s ∧
      s.store .staSsid = some (ascii "guest") ∧
      ¬NoLostUpdate (beside ledOff joinGuest) firstConfig noStore s := by
  have hled : ∀ config, Holds ledOff.body config → config.ledEnabled = false := by
    rintro config ⟨us, hus, hsame⟩
    have hupdates : updates ledOff.body = some [.ledEnabled false] := by decide +kernel
    obtain rfl : [Update.ledEnabled false] = us := Option.some.inj (hupdates.symm.trans hus)
    exact (congrArg Config.ledEnabled hsame).symm
  constructor
  · have hpcs : (runSteps (step (beside ledOff telnetOff)) (State.init firstConfig noStore)
        [(false, true), (true, true), (false, true), (true, true), (false, true),
          (true, true)]).map (fun s => (s.pc false, s.pc true, s.config.ledEnabled)) =
        some (.done 200, .done 200, true) := by decide +kernel
    obtain ⟨s, hrun, hdone⟩ := Option.map_eq_some_iff.mp hpcs
    simp only [Prod.mk.injEq] at hdone
    obtain ⟨hfirst, hsecond, hon⟩ := hdone
    refine ⟨s, hrun, fun h => ?_⟩
    have hdisjoint : List.Disjoint (named ledOff.body) (named telnetOff.body) := by
      have hfields : named ledOff.body = [.ledEnabled] ∧
          named telnetOff.body = [.telnetEnabled] := by
        decide +kernel
      rw [hfields.1, hfields.2]
      simp
    have hheld := (h.posts (Bool.forall_bool.mpr ⟨⟨rfl, hfirst⟩, ⟨rfl, hsecond⟩⟩) hdisjoint).2 false
    exact absurd (hon.symm.trans (hled s.config hheld)) nofun
  · have hpcs : (runSteps (step (beside ledOff joinGuest)) (State.init firstConfig noStore)
        [(true, true), (true, true), (false, true), (false, true), (false, true), (true, false),
          (true, false)]).map
          (fun s => (s.pc false, s.pc true, s.config.ledEnabled, s.store .staSsid)) =
        some (.done 200, .done 504, true, some (ascii "guest")) := by decide +kernel
    obtain ⟨s, hrun, hdone⟩ := Option.map_eq_some_iff.mp hpcs
    simp only [Prod.mk.injEq] at hdone
    obtain ⟨hpost, hfailed, hon, hguest⟩ := hdone
    refine ⟨s, hrun, hguest, fun h => ?_⟩
    have hheld := ((h.setup true rfl hfailed).1 rfl hpost).2
    exact absurd (hon.symm.trans (hled s.config hheld)) nofun

end BekenCam.Settings.Web
