import BekenCam.HttpServer

/-!
# The HTTP server outlives its workers

The stopper counts: the workers that may still use a server and the times its semaphore was given are
together the workers it has not collected. So a server is freed when nobody uses it, and a worker
that has not reported keeps it.
-/
namespace BekenCam.HttpServer

/-- The server that a worker may still use. -/
def Worker.uses (w : Worker) : Option ℕ :=
  match w.pc with
  | .deleted => none
  | _ => some w.server

def Pc.fd : Pc → Option ℕ
  | .serving fd => some fd
  | _ => none

/-- The reports that wait, and the workers that are not collected. -/
def Server.counts (o : Server) : Option (ℕ × ℕ) := o.exited.map fun given => (given, o.started)

/-- Where a socket can be. -/
inductive Place
  | listen (k : ℕ)
  | conn (i : ℕ)
  deriving DecidableEq

namespace State

def task (s : State) (i : ℕ) : Option ℕ := (s.worker i).bind Worker.uses

def book (s : State) (k : ℕ) : Option (ℕ × ℕ) := (s.server k).bind Server.counts

def slot (s : State) : Place → Option ℕ
  | .listen k => (s.server k).bind Server.listenFd
  | .conn i => (s.worker i).bind fun w => w.pc.fd

/-- A server that is there was set up completely. -/
structure Ready (o : Server) : Prop where
  listening : ∃ fd, o.listenFd = some fd
  given : ∃ n, o.exited = some n
  limit : o.started ≤ o.workers

structure Inv (s : State) : Prop where
  sound : s.fault = false
  freshServer : ∀ k, s.nextServer ≤ k → s.server k = none
  freshWorker : ∀ i, s.nextWorker ≤ i → s.worker i = none
  current : ∀ k, s.server k ≠ none ↔ s.current = some k
  owner : ∀ k, s.owner = .creating k ∨ s.owner = .stopping k ∨ s.owner = .collecting k →
    s.current = some k
  ready : ∀ k o, s.server k = some o → Ready o
  accounted : Accounted s.book s.task s.nextWorker
  owned : OwnedOnce s.slot s.closed s.nextFd

section Views

variable (s : State) (i k : ℕ) (pc : Pc) (o : Option Server)

theorem task_setWorker :
    (s.setWorker i k pc).task = Function.update s.task i (Worker.uses ⟨k, pc⟩) := by
  funext j
  by_cases hj : j = i
  · subst hj
    simp [task, setWorker]
  · simp [task, setWorker, hj]

theorem slot_setWorker : (s.setWorker i k pc).slot = Function.update s.slot (.conn i) pc.fd := by
  funext p
  cases p with
  | listen k' => rfl
  | conn j =>
    by_cases hj : j = i
    · subst hj
      simp [slot, setWorker]
    · rw [Function.update_of_ne fun h => hj (Place.conn.inj h)]
      simp [slot, setWorker, hj]

theorem book_setServer :
    (s.setServer k o).book = Function.update s.book k (o.bind Server.counts) := by
  funext k'
  by_cases hk : k' = k
  · subst hk
    simp [book, setServer]
  · simp [book, setServer, hk]

theorem slot_setServer :
    (s.setServer k o).slot = Function.update s.slot (.listen k) (o.bind Server.listenFd) := by
  funext p
  cases p with
  | conn j => rfl
  | listen k' =>
    by_cases hk : k' = k
    · subst hk
      simp [slot, setServer]
    · rw [Function.update_of_ne fun h => hk (Place.listen.inj h)]
      simp [slot, setServer, hk]

end Views

theorem inv_init : init.Inv where
  sound := rfl
  freshServer _ _ := rfl
  freshWorker _ _ := rfl
  current k := by simp [init]
  owner k := by simp [init]
  ready k o h := by simp [init] at h
  accounted := Accounted.empty
  owned := by
    have hslot : init.slot = fun _ => none := by
      funext p
      cases p <;> rfl
    rw [hslot]
    exact OwnedOnce.empty

section Invariant

variable {s s' : State} {i k : ℕ} {o : Server} {pc : Pc}

/-- What is somewhere is open. -/
theorem Inv.isOpen (h : s.Inv) {p : Place} {fd : ℕ} (hp : s.slot p = some fd) : s.isOpen fd = true := by
  have hlt := h.owned.slot_lt p fd hp
  have hnot := h.owned.not_gone p fd hp
  simp [State.isOpen, hlt, hnot]

theorem Inv.useFd (h : s.Inv) {p : Place} {fd : ℕ} (hp : s.slot p = some fd) : s.useFd fd = s := by
  simp [State.useFd, h.isOpen hp]

theorem Inv.closeFd (h : s.Inv) {p : Place} {fd : ℕ} (hp : s.slot p = some fd) :
    s.closeFd fd = { s with closed := fd :: s.closed } := by
  simp [State.closeFd, h.isOpen hp]

/-- The server of a worker that has not reported is there, and its semaphore has room. -/
theorem Inv.exists_server (h : s.Inv) (hi : s.task i = some k) :
    ∃ o given, s.server k = some o ∧ o.exited = some given ∧ given < o.workers := by
  obtain ⟨given, started, hbook, hlt⟩ := h.accounted.present hi
  obtain ⟨o, ho, hcounts⟩ := Option.bind_eq_some_iff.mp hbook
  obtain ⟨n, hn, hpair⟩ := Option.map_eq_some_iff.mp hcounts
  obtain ⟨rfl, rfl⟩ := Prod.mk.inj hpair
  exact ⟨o, n, ho, hn, hlt.trans_le (h.ready k o ho).limit⟩

theorem Inv.book_eq (h : s.Inv) (hk : s.server k = some o) :
    ∃ given, o.exited = some given ∧ s.book k = some (given, o.started) := by
  obtain ⟨n, hn⟩ := (h.ready k o hk).given
  exact ⟨n, hn, by simp [book, hk, Server.counts, hn]⟩

/-- A worker goes on, and what it does with its socket is accounted for. -/
theorem Inv.setWorker (h : s.Inv) {old : Pc} (hi : s.worker i = some ⟨k, old⟩)
    (hold : Worker.uses ⟨k, old⟩ = some k) (huses : Worker.uses ⟨k, pc⟩ = some k)
    {closed : List ℕ} {nextFd : ℕ}
    (howned : OwnedOnce (Function.update s.slot (.conn i) pc.fd) closed nextFd) :
    Inv { s.setWorker i k pc with closed := closed, nextFd := nextFd } := by
  have htask : (s.setWorker i k pc).task = s.task := by
    rw [task_setWorker, huses, ← hold, Function.update_eq_self_iff]
    simp [task, hi]
  refine ⟨h.sound, h.freshServer, ?_, h.current, h.owner, h.ready, ?_, ?_⟩
  · intro j hj
    have hji : j ≠ i := by
      rintro rfl
      simp [h.freshWorker j hj] at hi
    simp only [State.setWorker, Function.update_of_ne hji]
    exact h.freshWorker j hj
  · change Accounted s.book (s.setWorker i k pc).task s.nextWorker
    rw [htask]
    exact h.accounted
  · rw [← slot_setWorker] at howned
    exact howned

/-- A worker goes on without a socket. -/
theorem Inv.move (h : s.Inv) {old : Pc} (hi : s.worker i = some ⟨k, old⟩) (hfd : old.fd = none)
    (hold : Worker.uses ⟨k, old⟩ = some k) (hfd' : pc.fd = none)
    (huses : Worker.uses ⟨k, pc⟩ = some k) : (s.setWorker i k pc).Inv := by
  have hsame : Function.update s.slot (.conn i) pc.fd = s.slot := by
    rw [hfd', ← hfd, Function.update_eq_self_iff]
    simp [slot, hi]
  refine h.setWorker hi hold huses ?_
  rw [hsame]
  exact h.owned

theorem server_setServer_eq_none (hk : s.server k = some o) (o' : Server) (k' : ℕ) :
    (s.setServer k (some o')).server k' = none ↔ s.server k' = none := by
  by_cases hkk : k' = k
  · subst hkk
    simp [State.setServer, hk]
  · simp [State.setServer, hkk]

theorem Inv.ready_setServer (h : s.Inv) {o' : Server} (hready : Ready o') (k' : ℕ) (o₁ : Server)
    (ho₁ : (s.setServer k (some o')).server k' = some o₁) : Ready o₁ := by
  by_cases hkk : k' = k
  · subst hkk
    obtain rfl : o' = o₁ := by simpa [State.setServer] using ho₁
    exact hready
  · simp only [State.setServer, Function.update_of_ne hkk] at ho₁
    exact h.ready k' o₁ ho₁

theorem slot_setServer_same (hk : s.server k = some o) (o' : Server)
    (hlisten : o'.listenFd = o.listenFd) : (s.setServer k (some o')).slot = s.slot := by
  rw [slot_setServer, Function.update_eq_self_iff]
  simp [slot, hk, hlisten]

/-- A server that is there is written, and keeps its socket. -/
theorem Inv.setServer (h : s.Inv) (hk : s.server k = some o) {o' : Server}
    (hlisten : o'.listenFd = o.listenFd) (hready : Ready o')
    (haccounted : Accounted (Function.update s.book k o'.counts) s.task s.nextWorker) :
    (s.setServer k (some o')).Inv := by
  have hnone := server_setServer_eq_none hk o'
  refine ⟨h.sound, fun k' hk' => (hnone k').mpr (h.freshServer k' hk'), h.freshWorker,
    fun k' => (not_congr (hnone k')).trans (h.current k'), h.owner, h.ready_setServer hready, ?_, ?_⟩
  · rw [book_setServer]
    exact haccounted
  · rw [slot_setServer_same hk o' hlisten]
    exact h.owned

/-- `xTaskCreate` has made a worker. -/
theorem Inv.spawn (h : s.Inv) (hk : s.server k = some o) (hlimit : o.started < o.workers) :
    Inv { (s.setServer k (some { o with started := o.started + 1 })).setWorker s.nextWorker k .loop with
      nextWorker := s.nextWorker + 1 } := by
  have hnone := server_setServer_eq_none hk { o with started := o.started + 1 }
  obtain ⟨given, hgiven, hbook⟩ := h.book_eq hk
  have hready := h.ready k o hk
  refine ⟨h.sound, fun k' hk' => (hnone k').mpr (h.freshServer k' hk'), ?_,
    fun k' => (not_congr (hnone k')).trans (h.current k'), h.owner,
    h.ready_setServer ⟨hready.listening, hready.given, hlimit⟩, ?_, ?_⟩
  · intro j hj
    change s.nextWorker + 1 ≤ j at hj
    change Function.update s.worker s.nextWorker _ j = none
    rw [Function.update_of_ne (by omega)]
    exact h.freshWorker j (by omega)
  · change Accounted (s.setServer k _).book (State.task (s.setWorker s.nextWorker k .loop))
      (s.nextWorker + 1)
    rw [book_setServer, task_setWorker]
    simpa [Server.counts, hgiven, Worker.uses] using h.accounted.spawn hbook
  · change OwnedOnce (State.slot ((s.setServer k _).setWorker s.nextWorker k .loop)) s.closed s.nextFd
    rw [slot_setWorker, slot_setServer_same hk { o with started := o.started + 1 } rfl,
      Function.update_eq_self_iff.mpr]
    · exact h.owned
    · simp [slot, h.freshWorker s.nextWorker le_rfl, Pc.fd]

/-- A worker reports. -/
theorem Inv.exit (h : s.Inv) (hi : s.worker i = some ⟨k, .leaving⟩) :
    ((s.give k).setWorker i k .deleted).Inv := by
  have hitask : s.task i = some k := by simp [task, hi, Worker.uses]
  obtain ⟨o, n, ho, hn, hroom⟩ := h.exists_server hitask
  obtain ⟨given, hgiven, hbook⟩ := h.book_eq ho
  obtain rfl : n = given := Option.some.inj (hn.symm.trans hgiven)
  have hgive : s.give k = s.setServer k (some { o with exited := some (n + 1) }) := by
    simp [give, ho, hn, Nat.min_eq_left hroom]
  rw [hgive]
  have hnone := server_setServer_eq_none ho { o with exited := some (n + 1) }
  have hready := h.ready k o ho
  refine ⟨h.sound, fun k' hk' => (hnone k').mpr (h.freshServer k' hk'), ?_,
    fun k' => (not_congr (hnone k')).trans (h.current k'), h.owner,
    h.ready_setServer ⟨hready.listening, ⟨n + 1, rfl⟩, hready.limit⟩, ?_, ?_⟩
  · intro j hj
    have hji : j ≠ i := by
      rintro rfl
      simp [h.freshWorker j hj] at hi
    simp only [State.setWorker, Function.update_of_ne hji]
    exact h.freshWorker j hj
  · change Accounted (s.setServer k _).book (State.task (s.setWorker i k .deleted)) s.nextWorker
    rw [book_setServer, task_setWorker]
    simpa [Server.counts, Worker.uses] using h.accounted.report hitask hbook
  · rw [slot_setWorker, slot_setServer_same ho { o with exited := some (n + 1) } rfl,
      Function.update_eq_self_iff.mpr]
    · exact h.owned
    · simp [slot, hi, Pc.fd]

/-- The last worker is collected, and the server is freed. -/
theorem Inv.destroy (h : s.Inv) (hk : s.server k = some o) (hzero : o.started = 0) :
    Inv { s.destroy k with current := none, owner := .idle } := by
  obtain ⟨fd, hfd⟩ := (h.ready k o hk).listening
  obtain ⟨given, -, hbook⟩ := h.book_eq hk
  rw [hzero] at hbook
  have hcurrent := (h.current k).mp (by simp [hk])
  have hslotfd : s.slot (.listen k) = some fd := by simp [slot, hk, hfd]
  have hdestroy : s.destroy k = State.setServer { s with closed := fd :: s.closed } k none := by
    simp [State.destroy, hk, hfd, h.closeFd hslotfd]
  have hgone : ∀ k', (s.setServer k none).server k' = none := by
    intro k'
    by_cases hkk : k' = k
    · subst hkk
      simp [State.setServer]
    · simp only [State.setServer, Function.update_of_ne hkk]
      by_contra hsome
      exact hkk (Option.some.inj (((h.current k').mp hsome).symm.trans hcurrent))
  rw [hdestroy]
  refine ⟨h.sound, fun k' _ => hgone k', h.freshWorker, fun k' => ?_, ?_, ?_, ?_, ?_⟩
  · exact ⟨fun hsome => absurd (hgone k') hsome, nofun⟩
  · simp
  · intro k' o' ho'
    exact absurd (hgone k') (by simp only [State.setServer] at ho' ⊢; simp [ho'])
  · change Accounted (s.setServer k none).book s.task s.nextWorker
    rw [book_setServer]
    exact h.accounted.free hbook
  · change OwnedOnce (s.setServer k none).slot (fd :: s.closed) s.nextFd
    rw [slot_setServer]
    simpa [hslotfd] using h.owned.discard (.listen k)

theorem Inv.setOwner (h : s.Inv) {owner : Owner}
    (howner : ∀ k, owner = .creating k ∨ owner = .stopping k ∨ owner = .collecting k →
      s.current = some k) : Inv { s with owner := owner } :=
  ⟨h.sound, h.freshServer, h.freshWorker, h.current, howner, h.ready, h.accounted, h.owned⟩

/-- What the owner's local points to is there. -/
theorem Inv.owner_server (h : s.Inv)
    (hk : s.owner = .creating k ∨ s.owner = .stopping k ∨ s.owner = .collecting k) :
    ∃ o, s.server k = some o :=
  Option.ne_none_iff_exists'.mp ((h.current k).mpr (h.owner k hk))

/-- A server that is not published yet, with its socket. -/
theorem Inv.create (h : s.Inv) (hnone : s.current = none) (workers : ℕ) :
    Inv { s.setServer s.nextServer (some ⟨workers, some s.nextFd, false, some 0, 0⟩) with
      nextServer := s.nextServer + 1
      nextFd := s.nextFd + 1
      current := some s.nextServer
      owner := .creating s.nextServer } := by
  have hfresh := h.freshServer s.nextServer le_rfl
  have hgone : ∀ k, s.server k = none := by
    intro k
    by_contra hsome
    exact absurd ((h.current k).mp hsome) (by simp [hnone])
  refine ⟨h.sound, ?_, h.freshWorker, ?_, ?_, ?_, ?_, ?_⟩
  · intro k hk
    change s.nextServer + 1 ≤ k at hk
    change Function.update s.server s.nextServer _ k = none
    rw [Function.update_of_ne (by omega)]
    exact hgone k
  · intro k
    by_cases hk : k = s.nextServer
    · subst hk
      simp [State.setServer]
    · simp [State.setServer, hk, hgone k, Ne.symm hk]
  · intro k hk
    simp only [Owner.creating.injEq, reduceCtorEq, or_false] at hk
    rw [hk]
  · intro k o ho
    change Function.update s.server s.nextServer _ k = some o at ho
    by_cases hk : k = s.nextServer
    · subst hk
      rw [Function.update_self] at ho
      obtain rfl := Option.some.inj ho
      exact ⟨⟨_, rfl⟩, ⟨_, rfl⟩, Nat.zero_le _⟩
    · rw [Function.update_of_ne hk, hgone k] at ho
      exact absurd ho.symm (Option.some_ne_none o)
  · change Accounted (s.setServer s.nextServer _).book s.task s.nextWorker
    rw [book_setServer]
    exact h.accounted.create (by simp [book, hfresh])
  · change OwnedOnce (s.setServer s.nextServer _).slot s.closed (s.nextFd + 1)
    rw [slot_setServer]
    exact h.owned.create (by simp [slot, hfresh])

/-- What was set up before something failed is taken down again. -/
theorem Inv.abandon (h : s.Inv) (workers : ℕ) (exited : Option ℕ) (socket : Bool) :
    Inv (State.destroy { s.setServer s.nextServer
        (some ⟨workers, if socket then some s.nextFd else none, false, exited, 0⟩) with
      nextServer := s.nextServer + 1
      nextFd := if socket then s.nextFd + 1 else s.nextFd } s.nextServer) := by
  have hfresh := h.freshServer s.nextServer le_rfl
  have hsame : Function.update s.server s.nextServer none = s.server := by
    rw [Function.update_eq_self_iff, hfresh]
  have hnext : Inv { s with nextServer := s.nextServer + 1 } :=
    ⟨h.sound, fun k hk => h.freshServer k (Nat.le_of_succ_le hk), h.freshWorker, h.current, h.owner, h.ready,
      h.accounted, h.owned⟩
  cases socket with
  | false =>
    simpa [State.destroy, State.setServer, hsame] using hnext
  | true =>
    have hopen : s.nextFd ∉ s.closed := fun hmem => Nat.lt_irrefl _ (h.owned.gone_lt _ hmem)
    have hwaste := h.owned.waste
    have hclosed : Inv { s with
        nextServer := s.nextServer + 1
        nextFd := s.nextFd + 1
        closed := s.nextFd :: s.closed } :=
      ⟨hnext.sound, hnext.freshServer, hnext.freshWorker, hnext.current, hnext.owner, hnext.ready,
        hnext.accounted, hwaste⟩
    simpa [State.destroy, State.setServer, State.closeFd, State.isOpen, hsame, hopen, h.sound]
      using hclosed

theorem Inv.start (h : s.Inv) (config : Config) (malloc semaphore socket : Bool) :
    (s.start config malloc semaphore socket).Inv := by
  unfold State.start
  by_cases hrefused : (!config.handler || config.workers < minWorkers || s.current.isSome) = true
  · rw [if_pos hrefused]
    exact h
  rw [if_neg hrefused]
  cases malloc with
  | false => exact h
  | true =>
    have hnone : s.current = none := by
      simp only [Bool.or_eq_true, not_or] at hrefused
      simpa using hrefused.2
    have hcreate := h.create hnone config.workers
    have habandon := h.abandon config.workers (if semaphore then some 0 else none) socket
    cases semaphore <;> cases socket
    · exact habandon
    · exact habandon
    · exact habandon
    · exact hcreate

theorem Inv.collect (h : s.Inv) (hk : s.server k = some o) {n : ℕ} (hn : o.exited = some n) (hpos : n ≠ 0) :
    Inv (s.setServer k (some { o with exited := some (n - 1), started := o.started - 1 })) := by
  obtain ⟨given, hgiven, hbook⟩ := h.book_eq hk
  obtain rfl : n = given := Option.some.inj (hn.symm.trans hgiven)
  obtain ⟨m, rfl⟩ := Nat.exists_eq_succ_of_ne_zero hpos
  have hready := h.ready k o hk
  exact h.setServer hk rfl ⟨hready.listening, ⟨m, rfl⟩, (Nat.sub_le ..).trans hready.limit⟩
    (h.accounted.collect hbook)

theorem Inv.ownerStep {a : Act} (h : s.Inv) (hstep : HttpServer.ownerStep s a = some s') : s'.Inv := by
  cases a with
  | start config malloc semaphore socket =>
    simp only [HttpServer.ownerStep] at hstep
    split at hstep
    · obtain rfl := Option.some.inj hstep
      exact h.start config malloc semaphore socket
    · simp at hstep
  | create created =>
    simp only [HttpServer.ownerStep] at hstep
    split at hstep
    next k hown =>
      obtain ⟨o, ho⟩ := h.owner_server (.inl hown)
      have hcurrent := h.owner k (.inl hown)
      simp only [ho] at hstep
      split_ifs at hstep with hall hcreated
      · obtain rfl := Option.some.inj hstep
        exact h.setOwner fun k' hk' => by simp at hk'
      · obtain rfl := Option.some.inj hstep
        exact h.setOwner fun k' hk' => by simp at hk'; rw [← hk']; exact hcurrent
      · obtain rfl := Option.some.inj hstep
        exact h.spawn ho (by omega)
    · simp at hstep
  | stop =>
    simp only [HttpServer.ownerStep] at hstep
    split at hstep
    next k hown hcurrent =>
      obtain rfl := Option.some.inj hstep
      exact h.setOwner fun k' hk' => by simp at hk'; rw [← hk']; exact hcurrent
    · obtain rfl := Option.some.inj hstep
      exact h
    · simp at hstep
  | stopping =>
    simp only [HttpServer.ownerStep] at hstep
    split at hstep
    next k hown =>
      obtain ⟨o, ho⟩ := h.owner_server (.inr (.inl hown))
      have hcurrent := h.owner k (.inr (.inl hown))
      simp only [ho] at hstep
      obtain rfl := Option.some.inj hstep
      have hready := h.ready k o ho
      have hsame : Function.update s.book k (Server.counts { o with stopping := true }) = s.book := by
        rw [Function.update_eq_self_iff]
        simp [book, ho, Server.counts]
      have hset : (s.setServer k (some { o with stopping := true })).Inv :=
        h.setServer ho rfl ⟨hready.listening, hready.given, hready.limit⟩ (by rw [hsame]; exact h.accounted)
      exact hset.setOwner fun k' hk' => by simp at hk'; rw [← hk']; exact hcurrent
    · simp at hstep
  | collect taken =>
    simp only [HttpServer.ownerStep] at hstep
    split at hstep
    next k hown =>
      obtain ⟨o, ho⟩ := h.owner_server (.inr (.inr hown))
      obtain ⟨n, hn⟩ := (h.ready k o ho).given
      simp only [ho, hn] at hstep
      split_ifs at hstep with hzero htaken hempty
      · obtain rfl := Option.some.inj hstep
        exact h.destroy ho hzero
      · obtain rfl := Option.some.inj hstep
        exact h.setOwner fun k' hk' => by simp at hk'
      · obtain rfl := Option.some.inj hstep
        exact h.collect ho hn hempty
    · simp at hstep
  | look i | accept i accepted | serve i | close i | exit i => simp [HttpServer.ownerStep] at hstep

theorem Inv.workerStep {a : Act} (h : s.Inv) (hi : s.worker i = some ⟨k, pc⟩)
    (ha : a.worker = some i) (hstep : HttpServer.workerStep s i k pc a = some s') : s'.Inv := by
  have htask : pc ≠ .deleted → s.task i = some k := by
    intro hpc
    cases pc <;> first | exact absurd rfl hpc | simp [task, hi, Worker.uses]
  cases a with
  | look j =>
    cases pc with
    | loop =>
      obtain ⟨o, n, ho, -, -⟩ := h.exists_server (htask (by simp))
      simp only [HttpServer.workerStep, ho] at hstep
      obtain rfl := Option.some.inj hstep
      refine h.move hi rfl rfl ?_ ?_ <;> cases o.stopping <;> rfl
    | _ => simp [HttpServer.workerStep] at hstep
  | accept j accepted =>
    cases pc with
    | accepting =>
      obtain ⟨o, n, ho, -, -⟩ := h.exists_server (htask (by simp))
      obtain ⟨fd, hfd⟩ := (h.ready k o ho).listening
      have hlisten : s.slot (.listen k) = some fd := by simp [slot, ho, hfd]
      simp only [HttpServer.workerStep, ho, hfd, h.useFd hlisten] at hstep
      cases accepted with
      | true =>
        obtain rfl := Option.some.inj hstep
        have hempty : s.slot (.conn i) = none := by simp [slot, hi, Pc.fd]
        exact h.setWorker hi rfl rfl (h.owned.create hempty)
      | false =>
        obtain rfl := Option.some.inj hstep
        exact h.move hi rfl rfl rfl rfl
    | _ => simp [HttpServer.workerStep] at hstep
  | serve j =>
    cases pc with
    | serving fd =>
      obtain ⟨o, n, ho, -, -⟩ := h.exists_server (htask (by simp))
      have hconn : s.slot (.conn i) = some fd := by simp [slot, hi, Pc.fd]
      simp only [HttpServer.workerStep, ho, h.useFd hconn] at hstep
      obtain rfl := Option.some.inj hstep
      exact h
    | _ => simp [HttpServer.workerStep] at hstep
  | close j =>
    cases pc with
    | serving fd =>
      have hconn : s.slot (.conn i) = some fd := by simp [slot, hi, Pc.fd]
      simp only [HttpServer.workerStep, h.closeFd hconn] at hstep
      obtain rfl := Option.some.inj hstep
      have hdiscard := h.owned.discard (.conn i)
      rw [hconn] at hdiscard
      exact h.setWorker hi rfl rfl hdiscard
    | _ => simp [HttpServer.workerStep] at hstep
  | exit j =>
    cases pc with
    | leaving =>
      obtain rfl := Option.some.inj hstep
      exact h.exit hi
    | _ => simp [HttpServer.workerStep] at hstep
  | start _ _ _ _ | create _ | stop | stopping | collect _ => simp [Act.worker] at ha

theorem Inv.step {a : Act} (h : s.Inv) (hstep : HttpServer.step s a = some s') : s'.Inv := by
  unfold HttpServer.step at hstep
  cases ha : a.worker with
  | none =>
    rw [ha] at hstep
    exact h.ownerStep hstep
  | some i =>
    rw [ha] at hstep
    obtain ⟨⟨k, pc⟩, hi, hwork⟩ := Option.bind_eq_some_iff.mp hstep
    exact h.workerStep hi ha hwork

/-- Nothing that is gone is used. A server that is there is the current one, and no more workers use
it than were asked for. Sockets are closed once. The stopper waits for a worker that is there or has
reported. When no server is current and none is being started, nothing of one is left. -/
structure Safe (s : State) : Prop where
  sound : s.fault = false
  single : ∀ k, s.server k ≠ none → s.current = some k
  bounded : ∀ k o, s.server k = some o → users s.task s.nextWorker k ≤ o.workers
  once : s.closed.Nodup
  waiting : ∀ k o, s.owner = .collecting k → s.server k = some o → o.started ≠ 0 →
    (∃ n, o.exited = some (n + 1)) ∨ ∃ i, s.task i = some k
  released : s.current = none → (∀ k, s.server k = none) ∧ (∀ i w, s.worker i = some w → w.pc = .deleted) ∧
    ∀ fd < s.nextFd, fd ∈ s.closed

theorem Inv.safe (h : s.Inv) : Safe s where
  sound := h.sound
  single k := (h.current k).mp
  bounded k o ho := by
    obtain ⟨given, -, hbook⟩ := h.book_eq ho
    have hbalanced := h.accounted.balanced k _ _ hbook
    have hlimit := (h.ready k o ho).limit
    omega
  once := h.owned.nodup
  waiting k o _ ho hstarted := by
    obtain ⟨given, hgiven, hbook⟩ := h.book_eq ho
    have hbalanced := h.accounted.balanced k _ _ hbook
    cases given with
    | succ n => exact .inl ⟨n, hgiven⟩
    | zero =>
      have hsome : users s.task s.nextWorker k ≠ 0 := by omega
      rw [Ne, users_eq_zero] at hsome
      push Not at hsome
      obtain ⟨i, -, hi⟩ := hsome
      exact .inr ⟨i, hi⟩
  released hnone := by
    have hgone : ∀ k, s.server k = none := by
      intro k
      by_contra hk
      exact absurd ((h.current k).mp hk) (by simp [hnone])
    have hdeleted : ∀ i w, s.worker i = some w → w.pc = .deleted := by
      intro i w hi
      by_contra hpc
      have htask : s.task i = some w.server := by
        obtain ⟨k, pc⟩ := w
        cases pc <;> first | exact absurd rfl hpc | simp [task, hi, Worker.uses]
      obtain ⟨o, n, ho, -, -⟩ := h.exists_server htask
      simp [hgone] at ho
    refine ⟨hgone, hdeleted, fun fd hfd => ?_⟩
    rcases h.owned.kept fd hfd with hclosed | ⟨p, hp⟩
    · exact hclosed
    · cases p with
      | listen k => simp [slot, hgone] at hp
      | conn i =>
        obtain ⟨w, hw, hwfd⟩ := Option.bind_eq_some_iff.mp hp
        simp [hdeleted i w hw, Pc.fd] at hwfd

end Invariant
end State

open State

/-- Servers may be started and stopped any number of times, and all calls may fail. -/
theorem httpServer_lifetime {ls : List Act} {s : State} (hrun : runSteps step init ls = some s) :
    Safe s :=
  Inv.safe (invariant_of_steps (fun _ _ _ h hstep => Inv.step h hstep) inv_init hrun)

/-- A worker that serves a connection does not report in time, so the first attempt to stop gives
up; the second collects both workers. -/
def stoppedTwice : List Act :=
  [.start ⟨true, 2⟩ true true true, .create true, .create true, .create true, .look 0, .accept 0 true,
    .stop, .stopping, .look 1, .exit 1, .collect true, .collect false, .serve 0, .close 0, .stop,
    .stopping, .look 0, .exit 0, .collect true, .collect true]

theorem httpServer_lifetime_stoppedTwice : ∃ s, runSteps step init stoppedTwice = some s ∧
    s.current = none ∧ s.closed = [0, 1] ∧ Safe s := by
  have hrun : ∃ s, runSteps step init stoppedTwice = some s ∧ s.current = none ∧ s.closed = [0, 1] :=
    ⟨_, rfl, rfl, rfl⟩
  obtain ⟨s, hrun, hcurrent, hclosed⟩ := hrun
  exact ⟨s, hrun, hcurrent, hclosed, httpServer_lifetime hrun⟩

end BekenCam.HttpServer
