import BekenCam.TelnetFraming

/-!
# What the console reads

The parser drops the LF or NUL behind a CR. Its flag follows the data bytes, except that a 255
leaves it as it was.
-/
namespace BekenCam.Telnet

open Ringbuf

variable {w : ℕ}

/-! ## The data bytes of a connection -/

/-- LF and NUL, the second byte of an Enter. -/
def EndsEnter (b : UInt8) : Prop := b = 0 ∨ b = 10

instance : DecidablePred EndsEnter := fun _ => inferInstanceAs (Decidable (_ ∨ _))

/-- The data bytes without the LF and NUL that stand right behind a CR; `before` is the data byte
before the first. -/
def enters (before : Option UInt8) : List UInt8 → List UInt8
  | [] => []
  | b :: bytes =>
    (if before = some 13 ∧ EndsEnter b then [] else [b]) ++ enters (some b) bytes

/-- A CR, some 255, and then a byte that could end an Enter. -/
def Interposed (bytes : List UInt8) : Prop :=
  ∃ n b, EndsEnter b ∧ 13 :: (List.replicate (n + 1) iac ++ [b]) <:+: bytes

/-- What the parser does with a data byte: its flag, and what it has queued. -/
def queueByte (s : Bool × List UInt8) (b : UInt8) : Bool × List UInt8 :=
  if b = iac then (s.1, s.2 ++ [b])
  else if s.1 = true ∧ EndsEnter b then (false, s.2)
  else (b == 13, s.2 ++ [b])

def queueAll (bytes : List UInt8) : Bool × List UInt8 := bytes.foldl queueByte (false, [])

theorem queueAll_concat (bytes : List UInt8) (b : UInt8) :
    queueAll (bytes ++ [b]) = queueByte (queueAll bytes) b :=
  List.foldl_concat ..

theorem enters_concat (before : Option UInt8) (bytes : List UInt8) (b : UInt8) :
    enters before (bytes ++ [b]) = enters before bytes ++
      if bytes.getLast?.or before = some 13 ∧ EndsEnter b then [] else [b] := by
  induction bytes generalizing before with
  | nil =>
    rw [List.nil_append, enters, enters, enters, List.append_nil]
    rfl
  | cons a bytes ih =>
    have hlast : (a :: bytes).getLast?.or before = bytes.getLast?.or (some a) := by
      cases bytes with
      | nil => rfl
      | cons c bytes => simp [List.getLast?_cons]
    rw [List.cons_append, enters, enters, ih, hlast, List.append_assoc]

theorem cr_suffix_concat (bytes : List UInt8) (b : UInt8) (n : ℕ) :
    13 :: List.replicate (n + 1) iac <:+ bytes ++ [b] ↔
      b = iac ∧ 13 :: List.replicate n iac <:+ bytes := by
  rw [List.replicate_succ', ← List.cons_append, List.suffix_concat_iff]
  constructor
  · rintro (hnil | ⟨t, ht, hsuffix⟩)
    · cases hnil
    · obtain ⟨hinit, hlast⟩ := List.append_inj' ht rfl
      rw [hinit]
      exact ⟨(List.singleton_inj.mp hlast).symm, hsuffix⟩
  · rintro ⟨rfl, hsuffix⟩
    exact Or.inr ⟨_, rfl, hsuffix⟩

theorem cr_suffix_singleton (bytes : List UInt8) (b : UInt8) :
    [13] <:+ bytes ++ [b] ↔ b = 13 := by
  constructor
  · rintro ⟨t, ht⟩
    exact (List.singleton_inj.mp (List.append_inj' ht rfl).2).symm
  · rintro rfl
    exact List.suffix_append bytes [13]

/-- The flag is set behind a CR, also when 255 has come since. -/
theorem queueAll_flag (bytes : List UInt8) :
    (queueAll bytes).1 = true ↔ ∃ n, 13 :: List.replicate n iac <:+ bytes := by
  induction bytes using List.reverseRecOn with
  | nil => simp [queueAll]
  | append_singleton bytes b ih =>
    have hback : (∃ n, 13 :: List.replicate n iac <:+ bytes ++ [b]) ↔
        b = 13 ∨ b = iac ∧ ∃ n, 13 :: List.replicate n iac <:+ bytes := by
      constructor
      · rintro ⟨n, hn⟩
        cases n with
        | zero => exact Or.inl ((cr_suffix_singleton bytes b).mp hn)
        | succ n =>
          obtain ⟨hb, hsuffix⟩ := (cr_suffix_concat bytes b n).mp hn
          exact Or.inr ⟨hb, n, hsuffix⟩
      · rintro (hb | ⟨hb, n, hsuffix⟩)
        · exact ⟨0, (cr_suffix_singleton bytes b).mpr hb⟩
        · exact ⟨n + 1, (cr_suffix_concat bytes b n).mpr ⟨hb, hsuffix⟩⟩
    rw [queueAll_concat, hback, ← ih, queueByte]
    split_ifs with hiac henter
    · simp [hiac, iac]
    · rcases henter.2 with hb | hb
      · simp [hb, iac]
      · simp [hb, iac]
    · simp [hiac]

/-- Only a 255 comes between a CR and a flag that is still set. -/
theorem interposed_suffix_iff (bytes : List UInt8) :
    (∃ n, 13 :: List.replicate (n + 1) iac <:+ bytes) ↔
      (queueAll bytes).1 = true ∧ bytes.getLast? ≠ some 13 := by
  rw [queueAll_flag]
  constructor
  · rintro ⟨n, hn⟩
    refine ⟨⟨n + 1, hn⟩, ?_⟩
    obtain ⟨t, rfl⟩ := hn
    rw [List.replicate_succ', ← List.cons_append, ← List.append_assoc, List.getLast?_concat]
    decide
  · rintro ⟨⟨n, hn⟩, hlast⟩
    cases n with
    | zero =>
      obtain ⟨t, rfl⟩ := hn
      exact absurd List.getLast?_concat hlast
    | succ n => exact ⟨n, hn⟩

theorem interposed_concat (bytes : List UInt8) (b : UInt8) : Interposed (bytes ++ [b]) ↔
    Interposed bytes ∨ EndsEnter b ∧ (queueAll bytes).1 = true ∧ bytes.getLast? ≠ some 13 := by
  rw [← interposed_suffix_iff]
  constructor
  · rintro ⟨n, c, hc, hinfix⟩
    rcases List.infix_concat_iff.mp hinfix with hsuffix | hinfix
    · rw [← List.cons_append] at hsuffix
      rcases List.suffix_concat_iff.mp hsuffix with hnil | ⟨t, ht, hsuffix⟩
      · cases hnil
      · obtain ⟨hinit, hlast⟩ := List.append_inj' ht rfl
        rw [List.singleton_inj.mp hlast] at hc
        rw [← hinit] at hsuffix
        exact Or.inr ⟨hc, n, hsuffix⟩
    · exact Or.inl ⟨n, c, hc, hinfix⟩
  · rintro (⟨n, c, hc, hinfix⟩ | ⟨hb, n, hsuffix⟩)
    · exact ⟨n, c, hc, List.infix_concat_iff.mpr (Or.inr hinfix)⟩
    · refine ⟨n, b, hb, List.infix_concat_iff.mpr (Or.inl ?_)⟩
      rw [← List.cons_append]
      exact List.suffix_concat_iff.mpr (Or.inr ⟨_, rfl, hsuffix⟩)

/-- What the parser queues, byte by byte, against what it should. -/
theorem queueAll_step (bytes : List UInt8) (b : UInt8) :
    (queueAll (bytes ++ [b])).2 = (queueAll bytes).2 ++
      if (queueAll bytes).1 = true ∧ EndsEnter b then [] else [b] := by
  rw [queueAll_concat, queueByte]
  split_ifs with hiac henter henter
  · obtain ⟨-, hb | hb⟩ := henter
    · rw [hb] at hiac
      exact absurd hiac (by decide)
    · rw [hb] at hiac
      exact absurd hiac (by decide)
  · rfl
  · exact (List.append_nil _).symm
  · rfl

/-- Behind a CR the flag is set, so what should go goes. -/
theorem flag_of_getLast? {bytes : List UInt8} (h : bytes.getLast? = some 13) :
    (queueAll bytes).1 = true := by
  obtain ⟨t, rfl⟩ := List.getLast?_eq_some_iff.mp h
  exact (queueAll_flag _).mpr ⟨0, List.suffix_append t [13]⟩

theorem length_queueAll_le (bytes : List UInt8) :
    (queueAll bytes).2.length ≤ (enters none bytes).length := by
  induction bytes using List.reverseRecOn with
  | nil => exact Nat.le_refl 0
  | append_singleton bytes b ih =>
    rw [queueAll_step, enters_concat, List.length_append, List.length_append, Option.or_none]
    by_cases hspec : bytes.getLast? = some 13 ∧ EndsEnter b
    · rw [if_pos ⟨flag_of_getLast? hspec.1, hspec.2⟩, if_pos hspec]
      exact Nat.add_le_add_right ih 0
    · rw [if_neg hspec]
      split_ifs
      · exact Nat.add_le_add ih (Nat.zero_le 1)
      · exact Nat.add_le_add_right ih 1

theorem queueAll_eq_enters_iff (bytes : List UInt8) :
    (queueAll bytes).2 = enters none bytes ↔ ¬Interposed bytes := by
  induction bytes using List.reverseRecOn with
  | nil =>
    refine iff_of_true rfl ?_
    rintro ⟨n, b, -, hinfix⟩
    exact List.cons_ne_nil _ _ (List.infix_nil.mp hinfix)
  | append_singleton bytes b ih =>
    have hle := length_queueAll_le bytes
    rw [queueAll_step, enters_concat, Option.or_none, interposed_concat, not_or, ← ih]
    by_cases henter : EndsEnter b
    · by_cases hlast : bytes.getLast? = some 13
      · rw [if_pos ⟨flag_of_getLast? hlast, henter⟩, if_pos ⟨hlast, henter⟩, List.append_nil,
          List.append_nil]
        exact ⟨fun h => ⟨h, fun hbad => hbad.2.2 hlast⟩, fun h => h.1⟩
      · by_cases hflag : (queueAll bytes).1 = true
        · rw [if_pos ⟨hflag, henter⟩, if_neg fun h => hlast h.1]
          refine iff_of_false (fun h => ?_) fun h => h.2 ⟨henter, hflag, hlast⟩
          have hlen := congrArg List.length h
          rw [List.length_append, List.length_append, List.length_nil, List.length_singleton] at hlen
          omega
        · rw [if_neg fun h => hflag h.1, if_neg fun h => hlast h.1, List.append_left_inj]
          exact ⟨fun h => ⟨h, fun hbad => hflag hbad.2.1⟩, fun h => h.1⟩
    · rw [if_neg fun h => henter h.2, if_neg fun h => henter h.2, List.append_left_inj]
      exact ⟨fun h => ⟨h, fun hbad => henter hbad.1⟩, fun h => h.1⟩

/-! ## One byte of the client -/

/-- The parser does to its queue what it does with the data bytes that the byte completes. -/
theorem parse_console {rx : Ringbuf w} (p : Parser) (b : UInt8) (hroom : rx.isFull = false)
    (queued : List UInt8) : ∃ put, (parse rx p b).2.1.unread = rx.unread ++ put ∧
      (dataBytes (decodeByte b p.state.decode).2).foldl queueByte (p.afterCr, queued) =
        ((parse rx p b).1.afterCr, queued ++ put) := by
  have hput := fun byte => (putByte_spec byte hroom).2
  have hnone : rx.unread = rx.unread ++ [] := (List.append_nil _).symm
  have hkept : queued = queued ++ [] := (List.append_nil _).symm
  obtain ⟨state, afterCr⟩ := p
  cases state with
  | data =>
    simp only [ParserState.decode, decodeByte, parse]
    by_cases hiac : b = iac
    · rw [if_pos hiac, if_pos hiac]
      exact ⟨[], hnone, congrArg _ hkept⟩
    · have hone : dataBytes [Event.data b] = [b] := rfl
      rw [if_neg hiac, if_neg hiac, hone, List.foldl_cons, List.foldl_nil, queueByte,
        if_neg hiac]
      by_cases henter : afterCr = true ∧ EndsEnter b
      · have hdropped : afterCr = true ∧ (b = 0 ∨ b = 10) := henter
        rw [if_pos henter, if_pos hdropped]
        exact ⟨[], hnone, congrArg _ hkept⟩
      · have hqueued : ¬(afterCr = true ∧ (b = 0 ∨ b = 10)) := henter
        rw [if_neg henter, if_neg hqueued]
        exact ⟨[b], hput b, rfl⟩
  | iac =>
    simp only [ParserState.decode, decodeByte, parse]
    split_ifs
    · exact ⟨[iac], hput iac, rfl⟩
    · exact ⟨[], hnone, congrArg _ hkept⟩
    · exact ⟨[], hnone, congrArg _ hkept⟩
    · exact ⟨[], hnone, congrArg _ hkept⟩
  | option command => exact ⟨[], hnone, congrArg _ hkept⟩
  | subnegotiation =>
    simp only [ParserState.decode, decodeByte, parse]
    split_ifs
    · exact ⟨[], hnone, congrArg _ hkept⟩
    · exact ⟨[], hnone, congrArg _ hkept⟩
  | subnegotiationIac =>
    simp only [ParserState.decode, decodeByte, parse]
    split_ifs
    · exact ⟨[], hnone, congrArg _ hkept⟩
    · exact ⟨[], hnone, congrArg _ hkept⟩

namespace System

variable {s t : System w}

/-- The data bytes the client has sent. -/
def inputData (s : System w) : List UInt8 := dataBytes (decode .data s.received).2

/-- What `telnet_server_get_char` returns. -/
def charRead (s : System w) : Label → List UInt8
  | .read => s.server.rx.getByte.1.toList
  | .write _ | .disconnect | .stop | .session _ _ => []

def consoleRead : System w → List Label → List UInt8
  | _, [] => []
  | s, l :: ls =>
    s.charRead l ++
      match s.step l with
      | some t => consoleRead t ls
      | none => []

/-- The session finds room in the queue. -/
def HasRoom (s : System w) : Label → Prop
  | .session _ _ => s.server.rx.isFull = false
  | _ => True

instance : ∀ (s : System w) (l : Label), Decidable (HasRoom s l)
  | s, .session _ _ => inferInstanceAs (Decidable (s.server.rx.isFull = false))
  | _, .write _ | _, .read | _, .disconnect | _, .stop => isTrue trivial

/-- A step that leaves the parser and its queue alone. -/
structure SameInput (s t : System w) : Prop where
  parser : t.parser = s.parser
  rx : t.server.rx = s.server.rx
  received : t.received = s.received

theorem sameInput_write {bytes : List UInt8} (hstep : s.step (.write bytes) = some t) :
    SameInput s t := by
  simp only [step, Option.some.injEq] at hstep
  subst hstep
  unfold Server.write
  split_ifs
  · exact ⟨rfl, rfl, rfl⟩
  · exact ⟨rfl, rfl, rfl⟩

theorem sameInput_send (s : System w) (data : List UInt8) (taken : Option ℕ) (ok failed : Pc) :
    SameInput s (s.send data taken ok failed) := by
  cases taken with
  | none => exact ⟨rfl, rfl, rfl⟩
  | some k => exact ⟨rfl, rfl, rfl⟩

theorem sameInput_flush (s : System w) (raw : List UInt8) (closing : Bool) (taken : Option ℕ) :
    SameInput s (s.flush raw closing taken) := by
  unfold System.flush
  by_cases hraw : raw = []
  · rw [if_pos hraw]
    exact ⟨rfl, rfl, rfl⟩
  · rw [if_neg hraw]
    exact sameInput_send s _ taken _ _

/-- The session either parses one byte of what was received, or leaves the input alone. -/
theorem serve_input {select : Select} {taken : Option ℕ} (hstep : s.serve select taken = some t) :
    SameInput s t ∨ ∃ b, t.parser = (parse s.server.rx s.parser b).1 ∧
      t.server.rx = (parse s.server.rx s.parser b).2.1 ∧ t.received = s.received ++ [b] := by
  unfold System.serve at hstep
  cases hpc : s.pc with
  | clear =>
    rw [hpc] at hstep
    dsimp only at hstep
    split at hstep
    · obtain rfl := Option.some.inj hstep
      exact Or.inl ⟨rfl, rfl, rfl⟩
    · obtain rfl := Option.some.inj hstep
      exact Or.inl ⟨rfl, rfl, rfl⟩
  | loop =>
    rw [hpc] at hstep
    dsimp only at hstep
    split_ifs at hstep
    · obtain rfl := Option.some.inj hstep
      exact Or.inl ⟨rfl, rfl, rfl⟩
    · cases select with
      | failed | closed | quiet =>
        obtain rfl := Option.some.inj hstep
        exact Or.inl ⟨rfl, rfl, rfl⟩
      | input bytes =>
        dsimp only at hstep
        split_ifs at hstep
        obtain rfl := Option.some.inj hstep
        exact Or.inl ⟨rfl, rfl, rfl⟩
  | parsing input =>
    rw [hpc] at hstep
    cases input with
    | nil =>
      obtain rfl := Option.some.inj hstep
      exact Or.inl ⟨rfl, rfl, rfl⟩
    | cons b input =>
      dsimp only at hstep
      split_ifs at hstep
      · obtain rfl := Option.some.inj hstep
        exact Or.inr ⟨b, rfl, rfl, rfl⟩
      · obtain rfl := Option.some.inj hstep
        obtain ⟨hparser, hrx, hreceived⟩ := sameInput_send { s with
          parser := (parse s.server.rx s.parser b).1
          server := { s.server with rx := (parse s.server.rx s.parser b).2.1 }
          received := s.received ++ [b] } (parse s.server.rx s.parser b).2.2 taken
          (.parsing input) .leave
        exact Or.inr ⟨b, hparser, hrx, hreceived⟩
  | gather raw closing =>
    rw [hpc] at hstep
    dsimp only at hstep
    split_ifs at hstep
    · split at hstep
      · obtain rfl := Option.some.inj hstep
        exact Or.inl ⟨rfl, rfl, rfl⟩
      · obtain rfl := Option.some.inj hstep
        exact Or.inl (sameInput_flush s raw closing taken)
    · obtain rfl := Option.some.inj hstep
      exact Or.inl (sameInput_flush s raw closing taken)
  | leave | drain =>
    rw [hpc] at hstep
    obtain rfl := Option.some.inj hstep
    exact Or.inl ⟨rfl, rfl, rfl⟩
  | done =>
    rw [hpc] at hstep
    cases hstep

/-! ## Runs -/

/-- The console has read `got` of what was queued behind `base`. -/
structure Input (base got : List UInt8) (s : System w) : Prop where
  parser : s.parser.state.decode = (decode .data s.received).1
  flag : s.parser.afterCr = (queueAll s.inputData).1
  queued : got ++ s.server.rx.unread = base ++ (queueAll s.inputData).2

variable {base got : List UInt8}

theorem Input.same (h : Input base got s) (hsame : SameInput s t) : Input base got t := by
  obtain ⟨hparser, hflag, hqueued⟩ := h
  refine ⟨?_, ?_, ?_⟩
  · rw [hsame.parser, hsame.received, hparser]
  · rw [hsame.parser, hflag, inputData, inputData, hsame.received]
  · rw [hsame.rx, hqueued, inputData, inputData, hsame.received]

theorem Input.parsed (h : Input base got s) (hroom : s.server.rx.isFull = false) {b : UInt8}
    (hparser : t.parser = (parse s.server.rx s.parser b).1)
    (hrx : t.server.rx = (parse s.server.rx s.parser b).2.1)
    (hreceived : t.received = s.received ++ [b]) : Input base got t := by
  obtain ⟨put, hunread, hqueue⟩ := parse_console s.parser b hroom (queueAll s.inputData).2
  have hdecoded : decode .data t.received = ((decodeByte b s.parser.state.decode).1,
      (decode .data s.received).2 ++ (decodeByte b s.parser.state.decode).2) := by
    rw [hreceived, decode_append, ← h.parser]
    simp [decode]
  have hdata : queueAll t.inputData =
      ((parse s.server.rx s.parser b).1.afterCr, (queueAll s.inputData).2 ++ put) := by
    rw [inputData, hdecoded, dataBytes_append, queueAll, List.foldl_append, ← hqueue, h.flag]
    rfl
  refine ⟨?_, ?_, ?_⟩
  · rw [hdecoded, hparser]
    exact (parse_decode s.server.rx s.parser b).1.symm
  · rw [hdata, hparser]
  · rw [hdata, hrx, hunread, ← List.append_assoc, h.queued, List.append_assoc]

theorem Input.read (h : Input base got s) (hstep : s.step .read = some t) :
    Input base (got ++ s.server.rx.getByte.1.toList) t := by
  obtain rfl := Option.some.inj hstep
  refine ⟨h.parser, h.flag, Eq.trans ?_ h.queued⟩
  cases hempty : s.server.rx.isEmpty with
  | true => simp [getByte_empty hempty]
  | false =>
    obtain ⟨byte, rx, hget, hunread⟩ := getByte_spec hempty
    simp [hget, hunread]

theorem Input.run {ls : List Label} (h : Input base got s) (hwithin : Within step HasRoom s ls)
    (hrun : runSteps step s ls = some t) : Input base (got ++ consoleRead s ls) t := by
  induction ls generalizing s got with
  | nil =>
    cases hrun
    rwa [consoleRead, List.append_nil]
  | cons l ls ih =>
    obtain ⟨s₁, hstep, hrest⟩ := runSteps_cons hrun
    have hafter := hwithin.2 s₁ hstep
    rw [consoleRead, hstep, ← List.append_assoc]
    refine ih ?_ hafter hrest
    cases l with
    | write bytes =>
      rw [charRead, List.append_nil]
      exact h.same (sameInput_write hstep)
    | read => exact h.read hstep
    | disconnect | stop =>
      obtain rfl := Option.some.inj hstep
      rw [charRead, List.append_nil]
      exact h.same ⟨rfl, rfl, rfl⟩
    | session select taken =>
      rw [charRead, List.append_nil]
      rcases serve_input hstep with hsame | ⟨b, hparser, hrx, hreceived⟩
      · exact h.same hsame
      · exact h.parsed hwithin.1 hparser hrx hreceived

/-- The bytes queued for the console, read or not: behind what the queue held before, the data bytes
of the client, with one byte for each Enter. -/
def Delivered (tx rx : Ringbuf w) (stopping : Bool) (ls : List Label) (s : System w) : Prop :=
  consoleRead (start tx rx stopping) ls ++ s.server.rx.unread = rx.unread ++ enters none s.inputData

/-- However the stream is cut into chunks, and whenever the console reads. -/
theorem telnet_input_delivered_iff (tx rx : Ringbuf w) (stopping : Bool) {ls : List Label}
    {s : System w} (hwithin : Within step HasRoom (start tx rx stopping) ls)
    (hrun : runSteps step (start tx rx stopping) ls = some s) :
    Delivered tx rx stopping ls s ↔ ¬Interposed s.inputData := by
  have hstart : Input rx.unread [] (start tx rx stopping) := ⟨rfl, rfl, (List.append_nil _).symm⟩
  have hqueued := (hstart.run hwithin hrun).queued
  rw [List.nil_append] at hqueued
  rw [Delivered, hqueued, List.append_right_inj, queueAll_eq_enters_iff]

/-- Four slots. -/
def four : Ringbuf 8 where
  data := [7, 7, 7, 7]
  mask := 3
  inCursor := 0
  outCursor := 0
  size := rfl
  power := ⟨2, by decide, rfl⟩

/-- The client sends `input` in two chunks. -/
def chunks (first second : List UInt8) : List Label :=
  [.session .quiet none, .session (.input first) none] ++
    List.replicate (first.length + 2) (.session .quiet none) ++
      [.session (.input second) none] ++ List.replicate second.length (.session .quiet none)

/-- An option between a CR and its LF. -/
theorem telnet_input_delivered_enter :
    ∃ s, runSteps step (start four four false) (chunks [13, iac, do_] [1, 10, 65]) = some s ∧
      s.server.rx.unread = [13, 65] ∧
        (Delivered four four false (chunks [13, iac, do_] [1, 10, 65]) s ↔
          ¬Interposed s.inputData) := by
  have hrun : ∃ s, runSteps step (start four four false) (chunks [13, iac, do_] [1, 10, 65]) =
      some s ∧ s.server.rx.unread = [13, 65] := ⟨_, rfl, rfl⟩
  obtain ⟨s, hrun, hunread⟩ := hrun
  refine ⟨s, hrun, hunread, ?_⟩
  exact telnet_input_delivered_iff four four false (by decide +kernel) hrun

/-- CR, the data byte 255, LF: the LF is dropped too. -/
theorem telnet_input_lost : ¬∀ (tx rx : Ringbuf 8) (stopping : Bool) (ls : List Label)
    (s : System 8), Within step HasRoom (start tx rx stopping) ls →
      runSteps step (start tx rx stopping) ls = some s → Delivered tx rx stopping ls s := by
  intro h
  have hrun : ∃ s, runSteps step (start four four false) (chunks [13, iac] [iac, 10]) = some s ∧
      s.server.rx.unread = [13, 255] ∧ s.inputData = [13, 255, 10] := ⟨_, rfl, rfl, rfl⟩
  obtain ⟨s, hrun, hunread, hdata⟩ := hrun
  have hdelivered := h four four false _ s (by decide +kernel) hrun
  rw [Delivered, hunread, hdata] at hdelivered
  exact absurd hdelivered (by decide +kernel)

end System
end BekenCam.Telnet
