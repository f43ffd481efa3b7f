import BekenCam.RingBuffer

/-!
# One producer and one consumer

`ringbuf_put_byte` and `ringbuf_get_byte` in two contexts, without a lock. Each call is three
steps: the test, the access to the storage, the store of the own cursor; the steps of the two
sides come in any order. The own cursor cannot move under its owner, so only the test reads a
cursor that the other side moves.
-/
namespace BekenCam.Ringbuf

variable {w : ℕ}

/-- Where a call of `ringbuf_put_byte` is. -/
inductive Producer
  | idle
  | storing (byte : UInt8)
  | publishing (byte : UInt8)
  deriving DecidableEq, Repr

/-- Where a call of `ringbuf_get_byte` is. -/
inductive Consumer
  | idle
  | loading
  | publishing (byte : UInt8)
  deriving DecidableEq, Repr

/-- A call that has returned, with its answer. -/
inductive Call
  | put (byte : UInt8) (ok : Bool)
  | get (byte : Option UInt8)
  deriving DecidableEq, Repr

/-- The buffer, both sides, and the calls that have returned, in order. -/
structure Spsc (w : ℕ) where
  rb : Ringbuf w
  producer : Producer
  consumer : Consumer
  calls : List Call

/-- A call starts with its test; after that each side only moves on. -/
inductive SpscStep
  | put (byte : UInt8)
  | get
  | producer
  | consumer
  deriving DecidableEq, Repr

/-- An empty buffer, with both cursors at `cursor`. -/
def Spsc.start (rb : Ringbuf w) (cursor : BitVec w) : Spsc w :=
  ⟨{ rb with inCursor := cursor, outCursor := cursor }, .idle, .idle, []⟩

def Spsc.step (s : Spsc w) : SpscStep → Option (Spsc w)
  | .put byte =>
    match s.producer with
    | .idle =>
      if s.rb.isFull then some { s with calls := s.calls ++ [.put byte false] }
      else some { s with producer := .storing byte }
    | _ => none
  | .producer =>
    match s.producer with
    | .idle => none
    | .storing byte => some { s with rb := s.rb.store byte, producer := .publishing byte }
    | .publishing byte =>
      some { s with
        rb := s.rb.publishIn
        producer := .idle
        calls := s.calls ++ [.put byte true] }
  | .get =>
    match s.consumer with
    | .idle =>
      if s.rb.isEmpty then some { s with calls := s.calls ++ [.get none] }
      else some { s with consumer := .loading }
    | _ => none
  | .consumer =>
    match s.consumer with
    | .idle => none
    | .loading => some { s with consumer := .publishing s.rb.load }
    | .publishing byte =>
      some { s with
        rb := s.rb.publishOut
        consumer := .idle
        calls := s.calls ++ [.get (some byte)] }

/-- The bytes of the successful puts, in order. -/
def putBytes (calls : List Call) : List UInt8 :=
  calls.filterMap fun
    | .put byte true => some byte
    | _ => none

/-- The bytes of the successful gets, in order. -/
def getBytes (calls : List Call) : List UInt8 :=
  calls.filterMap fun
    | .get (some byte) => some byte
    | _ => none

@[simp] theorem putBytes_put (calls : List Call) (byte : UInt8) (ok : Bool) :
    putBytes (calls ++ [.put byte ok]) = putBytes calls ++ if ok then [byte] else [] := by
  cases ok <;> simp [putBytes]

@[simp] theorem putBytes_get (calls : List Call) (byte : Option UInt8) :
    putBytes (calls ++ [.get byte]) = putBytes calls := by
  simp [putBytes]

@[simp] theorem getBytes_put (calls : List Call) (byte : UInt8) (ok : Bool) :
    getBytes (calls ++ [.put byte ok]) = getBytes calls := by
  simp [getBytes]

@[simp] theorem getBytes_get (calls : List Call) (byte : Option UInt8) :
    getBytes (calls ++ [.get byte]) = getBytes calls ++ byte.toList := by
  cases byte <;> simp [getBytes]

/-- A call alone is the sequential function. -/
theorem put_alone (s : Spsc w) (byte : UInt8) (hidle : s.producer = .idle)
    (hroom : s.rb.isFull = false) :
    runSteps Spsc.step s [.put byte, .producer, .producer] =
      some { s with rb := (s.rb.putByte byte).2, calls := s.calls ++ [.put byte true] } := by
  simp [runSteps, Spsc.step, hidle, hroom, putByte]

theorem get_alone (s : Spsc w) (hidle : s.consumer = .idle) (hsome : s.rb.isEmpty = false) :
    runSteps Spsc.step s [.get, .consumer, .consumer] =
      some { s with
        rb := s.rb.getByte.2
        calls := s.calls ++ [.get s.rb.getByte.1] } := by
  simp [runSteps, Spsc.step, hidle, hsome, getByte]

/-! ## The invariant -/

/-- A put under way has its room for itself, and from its store on its byte is in place. -/
def Producer.Holds (rb : Ringbuf w) : Producer → Prop
  | .idle => True
  | .storing _ => rb.count.toNat < rb.data.length
  | .publishing byte => rb.count.toNat < rb.data.length ∧
      rb.data.getD (rb.inCursor &&& rb.mask).toNat default = byte

/-- A get under way has an unread byte, and from its load on it holds the oldest one. -/
def Consumer.Holds (rb : Ringbuf w) : Consumer → Prop
  | .idle => True
  | .loading => 0 < rb.count.toNat
  | .publishing byte => 0 < rb.count.toNat ∧ rb.load = byte

/-- What was put is what was taken out followed by what is in the buffer. -/
structure Spsc.Inv (s : Spsc w) : Prop where
  bytes : putBytes s.calls = getBytes s.calls ++ s.rb.unread
  count_le : s.rb.count.toNat ≤ s.rb.data.length
  producer : s.producer.Holds s.rb
  consumer : s.consumer.Holds s.rb

theorem inv_start (rb : Ringbuf w) (cursor : BitVec w) : (Spsc.start rb cursor).Inv := by
  have hcount : (Spsc.start rb cursor).rb.count.toNat = 0 := by
    simp [Spsc.start, count]
  refine ⟨?_, ?_, trivial, trivial⟩
  · rw [unread, hcount]
    rfl
  · rw [hcount]
    exact Nat.zero_le _

theorem load_store {rb : Ringbuf w} (byte : UInt8) (hsome : 0 < rb.count.toNat)
    (hroom : rb.count.toNat < rb.data.length) : (rb.store byte).load = rb.load := by
  have h := unread_store byte hroom
  have hstored : 0 < (rb.store byte).count.toNat := by simpa using hsome
  rw [unread_eq_load_cons hstored, unread_eq_load_cons hsome] at h
  exact (List.cons.inj h).1

/-- The consumer does not notice a store or a publish of the producer. -/
theorem consumer_store {rb : Ringbuf w} (byte : UInt8) (hroom : rb.count.toNat < rb.data.length)
    {c : Consumer} (h : c.Holds rb) : c.Holds (rb.store byte) := by
  cases c with
  | idle => trivial
  | loading => exact h
  | publishing b => exact ⟨h.1, (load_store byte h.1 hroom).trans h.2⟩

theorem consumer_publishIn {rb : Ringbuf w} (hroom : rb.count.toNat < rb.data.length)
    {c : Consumer} (h : c.Holds rb) : c.Holds rb.publishIn := by
  have hcount := publishIn_count hroom
  cases c with
  | idle => trivial
  | loading =>
    unfold Consumer.Holds
    omega
  | publishing b =>
    refine ⟨by omega, ?_⟩
    rw [← h.2]
    rfl

/-- The producer does not notice that a byte is taken out. -/
theorem producer_publishOut {rb : Ringbuf w} (hsome : 0 < rb.count.toNat) {p : Producer}
    (h : p.Holds rb) : p.Holds rb.publishOut := by
  have hcount := publishOut_count hsome
  have hdata := publishOut_data rb
  cases p with
  | idle => trivial
  | storing b =>
    unfold Producer.Holds at h ⊢
    rw [hdata]
    omega
  | publishing b =>
    unfold Producer.Holds at h ⊢
    refine ⟨?_, h.2⟩
    rw [hdata]
    omega

/-- One step of either side. -/
theorem Spsc.Inv.step {s s' : Spsc w} {l : SpscStep} (h : s.Inv) (hstep : s.step l = some s') :
    s'.Inv := by
  have hprod := h.producer
  have hcons := h.consumer
  unfold Spsc.step at hstep
  cases l with
  | put byte =>
    cases hp : s.producer with
    | idle =>
      simp only [hp] at hstep
      split_ifs at hstep with hfull
      · cases hstep
        refine ⟨?_, h.count_le, trivial, hcons⟩
        simpa using h.bytes
      · cases hstep
        refine ⟨h.bytes, h.count_le, ?_, hcons⟩
        rw [isFull_iff] at hfull
        simpa [Producer.Holds] using hfull
    | storing b => simp [hp] at hstep
    | publishing b => simp [hp] at hstep
  | producer =>
    cases hp : s.producer with
    | idle => simp [hp] at hstep
    | storing b =>
      simp only [hp, Option.some.injEq] at hstep
      subst hstep
      rw [hp] at hprod
      have hroom : s.rb.count.toNat < s.rb.data.length := hprod
      refine ⟨?_, ?_, ⟨?_, getD_store b⟩, consumer_store b hroom hcons⟩
      · rw [unread_store b hroom]
        exact h.bytes
      · simpa using h.count_le
      · simpa using hroom
    | publishing b =>
      simp only [hp, Option.some.injEq] at hstep
      subst hstep
      rw [hp] at hprod
      obtain ⟨hroom, hbyte⟩ := hprod
      have hcount := publishIn_count hroom
      refine ⟨?_, ?_, trivial, consumer_publishIn hroom hcons⟩
      · rw [unread_publishIn hroom, hbyte]
        simp [h.bytes]
      · rw [publishIn_data, hcount]
        exact hroom
  | get =>
    cases hc : s.consumer with
    | idle =>
      simp only [hc] at hstep
      split_ifs at hstep with hempty
      · cases hstep
        refine ⟨?_, h.count_le, hprod, trivial⟩
        simpa using h.bytes
      · cases hstep
        refine ⟨h.bytes, h.count_le, hprod, ?_⟩
        rw [isEmpty_iff] at hempty
        exact Nat.pos_of_ne_zero hempty
    | loading => simp [hc] at hstep
    | publishing b => simp [hc] at hstep
  | consumer =>
    cases hc : s.consumer with
    | idle => simp [hc] at hstep
    | loading =>
      simp only [hc, Option.some.injEq] at hstep
      subst hstep
      rw [hc] at hcons
      exact ⟨h.bytes, h.count_le, hprod, hcons, rfl⟩
    | publishing b =>
      simp only [hc, Option.some.injEq] at hstep
      subst hstep
      rw [hc] at hcons
      obtain ⟨hsome, hload⟩ := hcons
      have hcount := publishOut_count hsome
      have hle := h.count_le
      refine ⟨?_, ?_, producer_publishOut hsome hprod, trivial⟩
      · have hbytes := h.bytes
        rw [unread_eq_load_cons hsome, hload] at hbytes
        simp [hbytes]
      · rw [publishOut_data, hcount]
        omega

/-! ## Every interleaving -/

/-- The bytes taken out are a prefix of the bytes put in, the buffer still holds the others,
and there are never more of them than fit. -/
structure Spsc.Fifo (s : Spsc w) : Prop where
  bytes : putBytes s.calls = getBytes s.calls ++ s.rb.unread
  count_le : s.rb.count.toNat ≤ s.rb.capacity.toNat

/-- Only a put that finds the buffer full fails, only a get that finds it empty. -/
structure Spsc.Refusals (s s' : Spsc w) : Prop where
  put : ∀ byte, s'.calls = s.calls ++ [.put byte false] →
    s.rb.count.toNat = s.rb.capacity.toNat
  get : s'.calls = s.calls ++ [.get none] → s.rb.count.toNat = 0

/-- In every step that ends a call with a failure, the test has just failed. -/
theorem Spsc.Inv.refusals {s s' : Spsc w} {l : SpscStep} (h : s.Inv) (hstep : s.step l = some s') :
    s.Refusals s' := by
  have hle := h.count_le
  have hcap := s.rb.toNat_capacity
  unfold Spsc.step at hstep
  cases l with
  | put byte =>
    cases hp : s.producer with
    | idle =>
      simp only [hp] at hstep
      split_ifs at hstep with hfull
      · cases hstep
        rw [isFull_iff] at hfull
        exact ⟨fun _ _ => by omega, fun hc => by simp at hc⟩
      · cases hstep
        constructor <;> simp
    | storing b => simp [hp] at hstep
    | publishing b => simp [hp] at hstep
  | producer =>
    cases hp : s.producer with
    | idle => simp [hp] at hstep
    | storing b =>
      simp only [hp, Option.some.injEq] at hstep
      subst hstep
      constructor <;> simp
    | publishing b =>
      simp only [hp, Option.some.injEq] at hstep
      subst hstep
      constructor <;> simp
  | get =>
    cases hc : s.consumer with
    | idle =>
      simp only [hc] at hstep
      split_ifs at hstep with hempty
      · cases hstep
        exact ⟨fun _ hc => by simp at hc, fun _ => s.rb.isEmpty_iff.mp hempty⟩
      · cases hstep
        constructor <;> simp
    | loading => simp [hc] at hstep
    | publishing b => simp [hc] at hstep
  | consumer =>
    cases hc : s.consumer with
    | idle => simp [hc] at hstep
    | loading =>
      simp only [hc, Option.some.injEq] at hstep
      subst hstep
      constructor <;> simp
    | publishing b =>
      simp only [hc, Option.some.injEq] at hstep
      subst hstep
      constructor <;> simp

/-- In every interleaving, from every cursor, the buffer is a FIFO that loses, repeats and
overwrites nothing, and refuses a call only when it is full or empty at the call's test. -/
theorem ringbuf_spsc (rb : Ringbuf w) (cursor : BitVec w) (ls : List SpscStep) (s : Spsc w)
    (hrun : runSteps Spsc.step (.start rb cursor) ls = some s) :
    s.Fifo ∧ ∀ l s', s.step l = some s' → s.Refusals s' := by
  have hinv : s.Inv :=
    invariant_of_steps (fun _ _ _ h hstep => Spsc.Inv.step h hstep) (inv_start rb cursor) hrun
  refine ⟨⟨hinv.bytes, ?_⟩, fun l s' hstep => hinv.refusals hstep⟩
  rw [s.rb.toNat_capacity]
  exact hinv.count_le

/-- Two cells, and cursors of three bits that are about to wrap. -/
def twoCells : Ringbuf 3 := ⟨[0, 0], 1, 0, 0, rfl, 1, by decide, rfl⟩

/-- Two puts and a get in pieces, across the overflow of both cursors. -/
def overlappingCalls : List SpscStep :=
  [.put 7, .producer, .producer, .put 8, .get, .producer, .consumer, .producer, .consumer]

theorem ringbuf_spsc_overflow : ∃ s,
    runSteps Spsc.step (.start twoCells 7) overlappingCalls = some s ∧ s.Fifo ∧
      (∀ l s', s.step l = some s' → s.Refusals s') ∧ s.rb.inCursor = 1 ∧
      s.calls = [.put 7 true, .put 8 true, .get (some 7)] := by
  obtain ⟨s, hs⟩ : ∃ s, runSteps Spsc.step (.start twoCells 7) overlappingCalls = some s :=
    ⟨_, rfl⟩
  obtain ⟨hfifo, href⟩ := ringbuf_spsc twoCells 7 overlappingCalls s hs
  refine ⟨s, hs, hfifo, href, ?_⟩
  cases hs
  exact ⟨rfl, rfl⟩

end BekenCam.Ringbuf
