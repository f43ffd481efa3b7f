import BekenCam.ConfigPatch
import BekenCam.ConfigRoundTrip
import BekenCam.ConfigStorage
import BekenCam.StepRuns

/-!
# Two requests that write the settings

Each HTTP worker handles one request. A critical section on `g_config` is a step, and so is a
`config_save`; what a worker does between them on its own is part of the step before. Allocations,
reads of a body and writes to the flash do not fail, so the answers 500 are left out. The main task
reads `g_config` and does not write it.
-/
namespace BekenCam.Settings.Web

open FlashKv

inductive Handler
  | serveSettingsPost
  | serveSetup
  deriving DecidableEq

/-- A request and its whole body. -/
structure Request where
  handler : Handler
  body : List UInt8

/-- Where a worker is. -/
inductive Pc
  | start
  /-- The body is read into a snapshot that has yet to replace `g_config`. -/
  | apply (next : Config)
  | save
  /-- A station that is up on another network has to be taken down first. -/
  | off (backup trial : Config)
  | trial (backup trial : Config)
  | wait (backup trial : Config)
  | restore (backup : Config)
  /-- The trial network is joined; its config has yet to be stored. -/
  | keep
  | done (status : ℕ)
  deriving DecidableEq

/-- `store` is what each key reads as. -/
structure State where
  config : Config
  store : Key → Option (List UInt8)
  pc : Bool → Pc

def State.init (config : Config) (store : Key → Option (List UInt8)) : State :=
  ⟨config, store, fun _ => .start⟩

/-- The trial config of a `POST /setup`. -/
def setupTrial (body : List UInt8) (backup : Config) : Option Config :=
  match configFromJson body backup with
  | some trial => if trial.staSsid.headD 0 ≠ 0 then some { trial with staEnabled := true } else none
  | none => none

def serveSettingsPost (body : List UInt8) (config : Config) : Pc :=
  match configFromJson body config with
  | some next => .apply next
  | none => .done 400

def serveSetup (body : List UInt8) (backup : Config) : Pc :=
  match setupTrial body backup with
  | some trial => if backup.staEnabled then .off backup trial else .trial backup trial
  | none => .done 400

/-- From the first byte of the request to behind the snapshot. -/
def serve (request : Request) (config : Config) : Pc :=
  if request.body.length = 0 then .done 400
  else if request.body.length ≥ configJsonMax then .done 413
  else
    match request.handler with
    | .serveSettingsPost => serveSettingsPost request.body config
    | .serveSetup => serveSetup request.body config

def State.goto (s : State) (i : Bool) (pc : Pc) : State :=
  { s with pc := Function.update s.pc i pc }

def setConfig (s : State) (config : Config) : State := { s with config := config }

def configSaved (s : State) : State := { s with store := stored s.config }

/-- What a sector reads as after `config_save` is the store of the model. -/
theorem configSaved_store {s : State} {sector : Sector} (hs : OnlySettings sector)
    (hg : s.config.Saveable) : ∃ sector', exec (configSave s.config) sector = (.ok (), sector') ∧
      ∀ key : Key, kvMap sector' key.number = (configSaved s).store key :=
  exec_configSave hs hg

/-- A step of worker `i`. `connected` tells whether the trial network hands out an address within
the seconds it gets. -/
def step (requests : Bool → Request) (s : State) : Bool × Bool → Option State
  | (i, connected) =>
    match s.pc i with
    | .start => some (s.goto i (serve (requests i) s.config))
    | .apply next => some ((setConfig s next).goto i .save)
    | .save => some ((configSaved s).goto i (.done 200))
    | .off backup trial =>
      some ((setConfig s { backup with staEnabled := false }).goto i (.trial backup trial))
    | .trial backup trial => some ((setConfig s trial).goto i (.wait backup trial))
    | .wait backup trial =>
      if connected then some ((setConfig s { trial with apEnabled := false }).goto i .keep)
      else some (s.goto i (.restore backup))
    | .restore backup => some ((setConfig s backup).goto i (.done 504))
    | .keep => some ((configSaved s).goto i (.done 200))
    | .done _ => none

/-! ## What a step can do -/

/-- A step of one worker, with what it does to `g_config` and to the store. -/
inductive Moves (request : Request) (config : Config) (store : Key → Option (List UInt8)) :
    Pc → Pc → Config → (Key → Option (List UInt8)) → Prop
  | refuse (status : ℕ) (h : status = 400 ∨ status = 413) :
    Moves request config store .start (.done status) config store
  | snapshot (next : Config) (hpost : request.handler = .serveSettingsPost)
    (h : configFromJson request.body config = some next) :
    Moves request config store .start (.apply next) config store
  | backupUp (trial : Config) (hsetup : request.handler = .serveSetup)
    (h : setupTrial request.body config = some trial) (hup : config.staEnabled = true) :
    Moves request config store .start (.off config trial) config store
  | backupDown (trial : Config) (hsetup : request.handler = .serveSetup)
    (h : setupTrial request.body config = some trial) (hdown : config.staEnabled = false) :
    Moves request config store .start (.trial config trial) config store
  | apply (next : Config) : Moves request config store (.apply next) .save next store
  | save : Moves request config store .save (.done 200) config (stored config)
  | off (backup trial : Config) : Moves request config store (.off backup trial)
    (.trial backup trial) { backup with staEnabled := false } store
  | trial (backup trial : Config) :
    Moves request config store (.trial backup trial) (.wait backup trial) trial store
  | connect (backup trial : Config) : Moves request config store (.wait backup trial) .keep
    { trial with apEnabled := false } store
  | giveUp (backup trial : Config) :
    Moves request config store (.wait backup trial) (.restore backup) config store
  | restore (backup : Config) :
    Moves request config store (.restore backup) (.done 504) backup store
  | keep : Moves request config store .keep (.done 200) config (stored config)

theorem moves_serve (request : Request) (config : Config) (store : Key → Option (List UInt8)) :
    Moves request config store .start (serve request config) config store := by
  unfold serve
  split_ifs with hempty hlong
  · exact .refuse 400 (Or.inl rfl)
  · exact .refuse 413 (Or.inr rfl)
  cases hhandler : request.handler with
  | serveSettingsPost =>
    rw [serveSettingsPost]
    cases hnext : configFromJson request.body config with
    | none => exact .refuse 400 (Or.inl rfl)
    | some next => exact .snapshot next hhandler hnext
  | serveSetup =>
    rw [serveSetup]
    cases htrial : setupTrial request.body config with
    | none => exact .refuse 400 (Or.inl rfl)
    | some trial =>
      cases hup : config.staEnabled with
      | false => exact .backupDown trial hhandler htrial hup
      | true => exact .backupUp trial hhandler htrial hup

theorem moves_goto {request : Request} {s t s' : State} {i : Bool} {pc pc' : Pc}
    (h : some (t.goto i pc') = some s') (hpc : t.pc = s.pc)
    (hmoves : Moves request s.config s.store pc pc' t.config t.store) :
    Moves request s.config s.store pc (s'.pc i) s'.config s'.store ∧ s'.pc (!i) = s.pc (!i) := by
  obtain rfl : t.goto i pc' = s' := Option.some.inj h
  have hi : (t.goto i pc').pc i = pc' := Function.update_self ..
  have hother : (t.goto i pc').pc (!i) = t.pc (!i) :=
    Function.update_of_ne (Bool.not_ne_self i) ..
  rw [hi, hother, hpc]
  exact ⟨hmoves, rfl⟩

/-- A step of a worker moves it, and leaves the other where it is. -/
theorem step_cases {requests : Bool → Request} {s s' : State} {i connected : Bool}
    (h : step requests s (i, connected) = some s') :
    Moves (requests i) s.config s.store (s.pc i) (s'.pc i) s'.config s'.store ∧
      s'.pc (!i) = s.pc (!i) := by
  unfold step at h
  cases hpc : s.pc i <;> simp only [hpc] at h
  case start => exact moves_goto h rfl (moves_serve (requests i) s.config s.store)
  case apply next => exact moves_goto h rfl (.apply next)
  case save => exact moves_goto h rfl .save
  case off backup trial => exact moves_goto h rfl (.off backup trial)
  case trial backup trial => exact moves_goto h rfl (.trial backup trial)
  case wait backup trial =>
    split_ifs at h with hconnected
    · exact moves_goto h rfl (.connect backup trial)
    · exact moves_goto h rfl (.giveUp backup trial)
  case restore backup => exact moves_goto h rfl (.restore backup)
  case keep => exact moves_goto h rfl .keep
  case done status => cases h

end BekenCam.Settings.Web
