import Mathlib.Data.List.TakeWhile
import BekenCam.HttpChunking

/-!
# The limits of a request

The line has to leave room for its end in the 256 bytes that are kept with a NUL. The length of the
head is only looked at between two chunks, and not any more when the head has ended.
-/
namespace BekenCam.Http

/-! ## A head that is too long -/

/-- What the first `k` calls of `lwip_recv` have returned, as long as there is enough to come. -/
def arrived (cuts : ℕ → ℕ) : ℕ → ℕ
  | 0 => 0
  | k + 1 => arrived cuts k + min chunkSize (cuts k + 1)

/-- A chunk ends behind the limit, before the head of `n` bytes ends. -/
def CutBeyond (cuts : ℕ → ℕ) (n : ℕ) : Prop :=
  ∃ k, headLimit < arrived cuts k ∧ arrived cuts k < n

theorem arrived_mono (cuts : ℕ → ℕ) : Monotone (arrived cuts) :=
  monotone_nat_of_le_succ fun _ => Nat.le_add_right _ _

theorem not_cutBeyond {cuts : ℕ → ℕ} {n : ℕ} (h : n ≤ headLimit + 1) : ¬CutBeyond cuts n := by
  rintro ⟨k, hlimit, hn⟩
  omega

/-- A chunk that reaches the end of a head that was within the limit before. -/
theorem not_cutBeyond_of_end {cuts : ℕ → ℕ} {n k : ℕ} (hbefore : arrived cuts k ≤ headLimit)
    (hend : n ≤ arrived cuts (k + 1)) : ¬CutBeyond cuts n := by
  rintro ⟨i, hlimit, hn⟩
  rcases Nat.lt_or_ge k i with hlt | hge
  · have hle : arrived cuts (k + 1) ≤ arrived cuts i := arrived_mono cuts hlt
    omega
  · have hle := arrived_mono cuts hge
    omega

/-- What the loop finds at the end of a chunk that is within the limit. -/
theorem readHeadLoop_cut {head l q rest : List UInt8} {socket : Socket} (h : IsHead head)
    (hhead : head = l ++ q) (hq : q ≠ []) (hincoming : socket.incoming = q ++ rest)
    (harrived : l.length = arrived socket.cuts socket.calls) (hlimit : l.length ≤ headLimit)
    {fuel : ℕ} (hfuel : headLimit < l.length + fuel) :
    (CutBeyond socket.cuts head.length →
      (readHeadLoop fuel (headAfter l) l.length socket).1 = .tooLarge) ∧
    (¬CutBeyond socket.cuts head.length → ∃ pending,
      (readHeadLoop fuel (headAfter l) l.length socket).1 = .ok (headAfter head) pending) := by
  induction fuel generalizing l q socket with
  | zero => omega
  | succ fuel ih =>
    have hmore : socket.incoming ≠ [] := by
      rw [hincoming]
      exact List.append_ne_nil_of_left_ne_nil hq rest
    have hlen := congrArg List.length hhead
    rw [List.length_append] at hlen
    have hnext : arrived socket.cuts (socket.calls + 1) =
        l.length + min chunkSize (socket.cuts socket.calls + 1) := by rw [arrived, harrived]
    have hpos : 0 < min chunkSize (socket.cuts socket.calls + 1) :=
      Nat.lt_min.mpr ⟨by decide, Nat.succ_pos _⟩
    rw [readHeadLoop, Socket.recv, if_neg hmore]
    dsimp only
    rcases Nat.lt_or_ge (min chunkSize (socket.cuts socket.calls + 1)) q.length with hwithin | hend
    · have htake : socket.incoming.take (min chunkSize (socket.cuts socket.calls + 1)) =
          q.take (min chunkSize (socket.cuts socket.calls + 1)) := by
        rw [hincoming, List.take_append_of_le_length hwithin.le]
      have hdrop : q.drop (min chunkSize (socket.cuts socket.calls + 1)) ≠ [] := by
        rw [Ne, List.drop_eq_nil_iff]
        omega
      have hhead' : head = l ++ q.take (min chunkSize (socket.cuts socket.calls + 1)) ++
          q.drop (min chunkSize (socket.cuts socket.calls + 1)) := by
        rw [List.append_assoc, List.take_append_drop, hhead]
      have htaken : (q.take (min chunkSize (socket.cuts socket.calls + 1))).length =
          min chunkSize (socket.cuts socket.calls + 1) := List.length_take_of_le hwithin.le
      rw [htake, scanChunk_within h hhead' hdrop]
      dsimp only
      rw [htaken]
      split_ifs with hlarge
      · refine ⟨fun _ => rfl, fun hnot => absurd ⟨socket.calls + 1, ?_, ?_⟩ hnot⟩
        · rw [hnext]
          exact hlarge
        · rw [hnext]
          omega
      · have hlen' : (l ++ q.take (min chunkSize (socket.cuts socket.calls + 1))).length =
            l.length + min chunkSize (socket.cuts socket.calls + 1) := by
          rw [List.length_append, htaken]
        have hrest : socket.incoming.drop (min chunkSize (socket.cuts socket.calls + 1)) =
            q.drop (min chunkSize (socket.cuts socket.calls + 1)) ++ rest := by
          rw [hincoming, List.drop_append_of_le_length hwithin.le]
        rw [← hlen']
        have hread : ({ socket with incoming := socket.incoming.drop (min chunkSize
            (socket.cuts socket.calls + 1)), calls := socket.calls + 1 } : Socket).incoming =
            _ := hrest
        exact ih hhead' hdrop hread (hlen'.trans hnext.symm) (by omega) (by omega)
    · obtain ⟨pending, hpending⟩ : ∃ pending,
          socket.incoming.take (min chunkSize (socket.cuts socket.calls + 1)) = q ++ pending := by
        rw [hincoming, List.take_append, List.take_of_length_le hend]
        exact ⟨_, rfl⟩
      rw [hpending, scanChunk_end h hhead hq]
      refine ⟨fun hcut => absurd hcut ?_, fun _ => ⟨pending, rfl⟩⟩
      exact not_cutBeyond_of_end (k := socket.calls) (by omega) (by omega)

/-- The length of a head is found too large only between two chunks. -/
theorem readHead_cut {head : List UInt8} (h : IsHead head) (rest : List UInt8) (cuts : ℕ → ℕ) :
    (CutBeyond cuts head.length → (readHead ⟨head ++ rest, cuts, 0⟩).1 = .tooLarge) ∧
    (¬CutBeyond cuts head.length →
      ∃ pending, (readHead ⟨head ++ rest, cuts, 0⟩).1 = .ok (headAfter head) pending) := by
  have hne : head ≠ [] := by
    rintro rfl
    exact absurd h.ends (by decide)
  exact readHeadLoop_cut (l := []) h rfl hne (show (⟨head ++ rest, cuts, 0⟩ : Socket).incoming = _ from rfl)
    rfl
    (Nat.zero_le _) (Nat.lt_add_of_pos_left (by decide))

/-! ## The line -/

/-- The start of the request is kept. -/
theorem headAfter_kept (l : List UInt8) : (headAfter l).kept = l.take (requestBufSize - 1) ∧
    (headAfter l).truncated = decide (requestBufSize - 1 < l.length) := by
  induction l using List.reverseRecOn with
  | nil => exact ⟨rfl, rfl⟩
  | append_singleton l b ih =>
    obtain ⟨hkept, htruncated⟩ := ih
    have hcollect : ∀ st : HeadState, (st.collect b).kept = st.kept ∧
        (st.collect b).truncated = st.truncated := by
      intro st
      unfold HeadState.collect
      split_ifs <;> exact ⟨rfl, rfl⟩
    have hlen : (l ++ [b]).length = l.length + 1 := List.length_append
    have hsize : (l.take (requestBufSize - 1)).length = min (requestBufSize - 1) l.length :=
      List.length_take
    rw [headAfter_concat, HeadState.byte]
    dsimp only
    rw [(hcollect _).1, (hcollect _).2, HeadState.keep, hlen]
    split_ifs with hroom
    · rw [hkept, hsize] at hroom
      refine ⟨?_, ?_⟩
      · dsimp only
        rw [hkept, List.take_of_length_le (by omega), List.take_of_length_le (by omega)]
      · rw [htruncated, decide_eq_false (by omega), decide_eq_false (by omega)]
    · rw [hkept, hsize] at hroom
      refine ⟨?_, ?_⟩
      · dsimp only
        rw [hkept, List.take_append_of_le_length (by omega)]
      · rw [decide_eq_true (by omega)]

/-- `METHOD /path ...`; the line ends with CR LF, which are not part of it. -/
structure IsRequestLine (line : List UInt8) : Prop where
  form : ∃ method rest, line = method ++ space :: 47 :: rest ∧ method ≠ [] ∧
    ∀ b ∈ method, b ≠ space ∧ b ≠ 0
  ends : ∀ b ∈ line, b ≠ cr ∧ b ≠ lf

theorem IsRequestLine.takeWhile {line : List UInt8} (h : IsRequestLine line) :
    ∀ b ∈ line, (b != cr && b != lf) = true := by
  intro b hb
  simp [h.ends b hb]

/-- The line and its CR fit the buffer: the request goes to the handler. -/
theorem parseRequestLine_short {line more : List UInt8} (h : IsRequestLine line)
    (hshort : line.length < requestBufSize - 1) :
    ∃ request, parseRequestLine (headAfter (line ++ cr :: more)) = .ok request := by
  obtain ⟨method, rest, hform, hmethod, htoken⟩ := h.form
  have hkept : (headAfter (line ++ cr :: more)).kept =
      line ++ cr :: more.take (requestBufSize - 2 - line.length) := by
    have hrest : requestBufSize - 1 - line.length = requestBufSize - 2 - line.length + 1 := by
      simp only [requestBufSize] at hshort ⊢
      omega
    rw [(headAfter_kept _).1, List.take_append, List.take_of_length_le hshort.le, hrest,
      List.take_succ_cons]
  have hline : (headAfter (line ++ cr :: more)).kept.takeWhile (fun b => b != cr && b != lf) =
      line := by
    rw [hkept, List.takeWhile_append_of_pos h.takeWhile, List.takeWhile_cons_of_neg (by simp),
      List.append_nil]
  have htext : line.takeWhile (· != 0) =
      method ++ space :: 47 :: rest.takeWhile (· != 0) := by
    have hzero : ∀ b ∈ method, (b != 0) = true := fun b hb => by simp [(htoken b hb).2]
    rw [hform, List.takeWhile_append_of_pos hzero, List.takeWhile_cons_of_pos (by decide),
      List.takeWhile_cons_of_pos (by decide)]
  have hmethod' : (method ++ space :: 47 :: rest.takeWhile (· != 0)).takeWhile (· != space) =
      method := by
    have hspace : ∀ b ∈ method, (b != space) = true := fun b hb => by simp [(htoken b hb).1]
    rw [List.takeWhile_append_of_pos hspace, List.takeWhile_cons_of_neg (by simp), List.append_nil]
  have hpath : (method ++ space :: 47 :: rest.takeWhile (· != 0)).drop (method.length + 1) =
      47 :: rest.takeWhile (· != 0) := by
    rw [List.drop_append, List.drop_of_length_le (Nat.le_succ _), Nat.add_sub_cancel_left,
      List.nil_append, List.drop_succ_cons, List.drop_zero]
  have hend : line.length ≠ (headAfter (line ++ cr :: more)).kept.length := by
    rw [hkept, List.length_append, List.length_cons]
    omega
  have hfound : ¬(method.length = (method ++ space :: 47 :: rest.takeWhile (· != 0)).length ∨
      method = []) := by
    rw [List.length_append, List.length_cons, List.length_cons, not_or]
    exact ⟨by omega, hmethod⟩
  unfold parseRequestLine
  dsimp only
  rw [hline, if_neg hend, htext, hmethod', if_neg hfound, hpath, if_neg (by simp)]
  exact ⟨_, rfl⟩

/-- Otherwise the end of the line is not found. -/
theorem parseRequestLine_long {line more : List UInt8} (h : IsRequestLine line)
    (hlong : requestBufSize - 1 ≤ line.length) :
    parseRequestLine (headAfter (line ++ cr :: more)) = .error 414 := by
  obtain ⟨hkept, htruncated⟩ := headAfter_kept (line ++ cr :: more)
  rw [List.take_append_of_le_length hlong] at hkept
  have hline : (line.take (requestBufSize - 1)).takeWhile (fun b => b != cr && b != lf) =
      line.take (requestBufSize - 1) :=
    List.takeWhile_eq_self_iff.mpr fun b hb => h.takeWhile b (List.mem_of_mem_take hb)
  have hmore : requestBufSize - 1 < (line ++ cr :: more).length := by
    rw [List.length_append, List.length_cons]
    omega
  unfold parseRequestLine
  dsimp only
  rw [hkept, hline, if_pos rfl, htruncated, decide_eq_true hmore]
  rfl

/-! ## The decision -/

theorem serveRequest_tooLarge {socket : Socket} (h : (readHead socket).1 = .tooLarge) :
    (serveRequest socket).1 = .rejected 431 := by
  unfold serveRequest
  cases hread : readHead socket with
  | mk result socket' =>
    rw [hread] at h
    subst h
    rfl

theorem serveRequest_ok {socket : Socket} {head : HeadState} {pending : List UInt8}
    (h : (readHead socket).1 = .ok head pending) : (serveRequest socket).1 =
      match parseRequestLine head with
      | .error status => .rejected status
      | .ok request => .handled request := by
  unfold serveRequest
  cases hread : readHead socket with
  | mk result socket' =>
    rw [hread] at h
    subst h
    dsimp only
    cases parseRequestLine head with
    | error status => rfl
    | ok request => rfl

section

variable {line more : List UInt8} (hline : IsRequestLine line)
  (hhead : IsHead (line ++ cr :: more)) (rest : List UInt8) (cuts : ℕ → ℕ)

include hhead

theorem serveRequest_cut (hcut : CutBeyond cuts (line ++ cr :: more).length) :
    (serveRequest ⟨line ++ cr :: more ++ rest, cuts, 0⟩).1 = .rejected 431 :=
  serveRequest_tooLarge ((readHead_cut hhead rest cuts).1 hcut)

include hline

/-- The limit of the line is exact when its end counts. -/
theorem serveRequest_short (hcut : ¬CutBeyond cuts (line ++ cr :: more).length)
    (hshort : line.length + 2 ≤ requestBufSize) :
    ∃ request, (serveRequest ⟨line ++ cr :: more ++ rest, cuts, 0⟩).1 = .handled request := by
  obtain ⟨pending, hread⟩ := (readHead_cut hhead rest cuts).2 hcut
  obtain ⟨request, hrequest⟩ : ∃ request,
      parseRequestLine (headAfter (line ++ cr :: more)) = .ok request :=
    parseRequestLine_short hline (Nat.lt_sub_of_add_lt hshort)
  rw [serveRequest_ok hread, hrequest]
  exact ⟨request, rfl⟩

theorem serveRequest_long (hcut : ¬CutBeyond cuts (line ++ cr :: more).length)
    (hlong : requestBufSize < line.length + 2) :
    (serveRequest ⟨line ++ cr :: more ++ rest, cuts, 0⟩).1 = .rejected 414 := by
  obtain ⟨pending, hread⟩ := (readHead_cut hhead rest cuts).2 hcut
  have hlong' : requestBufSize - 1 ≤ line.length := by omega
  rw [serveRequest_ok hread, parseRequestLine_long hline hlong']

end

/-- The limits as they are documented. The line counts without its end. -/
structure LimitsHold (line head : List UInt8) (decision : Decision) : Prop where
  handled : (∃ request, decision = .handled request) ↔
    line.length ≤ 256 ∧ head.length ≤ headLimit
  long : 256 < line.length → head.length ≤ headLimit → decision = .rejected 414
  large : headLimit < head.length → decision = .rejected 431

/-- The limits hold unless the line has 255 or 256 bytes, or the head is too long and its end comes
in one chunk with the byte at the limit. -/
theorem http_limits_iff {line more : List UInt8} (hline : IsRequestLine line)
    (hhead : IsHead (line ++ cr :: more)) (rest : List UInt8) (cuts : ℕ → ℕ) :
    LimitsHold line (line ++ cr :: more)
        (serveRequest ⟨line ++ cr :: more ++ rest, cuts, 0⟩).1 ↔
      ((line ++ cr :: more).length ≤ headLimit → line.length ≤ 254 ∨ 256 < line.length) ∧
      (headLimit < (line ++ cr :: more).length →
        CutBeyond cuts (line ++ cr :: more).length) := by
  have hsize : requestBufSize = 256 := rfl
  have hcut := serveRequest_cut hhead rest cuts
  have hshort := serveRequest_short hline hhead rest cuts
  have hlong := serveRequest_long hline hhead rest cuts
  rcases Nat.lt_or_ge headLimit (line ++ cr :: more).length with hlarge | hsmall
  · constructor
    · intro h
      refine ⟨fun hle => by omega, fun _ => ?_⟩
      by_contra hnot
      have hrejected := h.large hlarge
      rcases Nat.lt_or_ge requestBufSize (line.length + 2) with hl | hl
      · have h414 := hlong hnot hl
        rw [hrejected] at h414
        exact absurd h414 (by decide)
      · obtain ⟨request, hrequest⟩ := hshort hnot hl
        rw [hrejected] at hrequest
        cases hrequest
    · rintro ⟨-, h⟩
      have hrejected := hcut (h hlarge)
      refine ⟨⟨?_, fun hle => by omega⟩, fun _ hle => by omega, fun _ => hrejected⟩
      rintro ⟨request, hrequest⟩
      rw [hrejected] at hrequest
      cases hrequest
  · have hnot : ¬CutBeyond cuts (line ++ cr :: more).length :=
      not_cutBeyond (Nat.le_succ_of_le hsmall)
    constructor
    · intro h
      refine ⟨fun _ => ?_, fun hlt => by omega⟩
      by_contra hmiddle
      obtain ⟨request, hrequest⟩ := h.handled.mpr ⟨by omega, hsmall⟩
      rw [hlong hnot (by omega)] at hrequest
      cases hrequest
    · rintro ⟨h, -⟩
      rcases h hsmall with hl | hl
      · refine ⟨⟨fun _ => ⟨by omega, hsmall⟩, fun _ => hshort hnot (by omega)⟩,
          fun hgt => by omega, fun hlt => by omega⟩
      · have hrejected := hlong hnot (by omega)
        refine ⟨⟨?_, fun hle => by omega⟩, fun _ _ => hrejected, fun hlt => by omega⟩
        rintro ⟨request, hrequest⟩
        rw [hrejected] at hrequest
        cases hrequest

/-- A scan that ends with the last byte has seen one head. -/
theorem isHead_of_scanChunk {l q : List UInt8} (hbefore : ∀ l', l' <+: l → ¬blankLine <:+ l')
    (h : (scanChunk (headAfter l) q).2 = some []) : IsHead (l ++ q) := by
  induction q generalizing l with
  | nil => cases h
  | cons b q ih =>
    have hproper : ∀ l', l' <+: l ++ [b] → l' ≠ l ++ [b] → ¬blankLine <:+ l' := by
      intro l' hl' hne
      exact hbefore l' ((List.prefix_concat_iff.mp hl').resolve_left hne)
    have hseen := seen_headAfter hproper
    rw [scanChunk, ← headAfter_concat, hseen] at h
    split_ifs at h with hend
    · obtain rfl : q = [] := Option.some.inj h
      exact ⟨matched_eq_four.mp hend, hproper⟩
    · have hnext := ih (fun l' hl' => by
        rcases List.prefix_concat_iff.mp hl' with rfl | hl'
        · exact fun hsuffix => hend (matched_eq_four.mpr hsuffix)
        · exact hbefore l' hl') h
      rwa [List.append_assoc] at hnext

theorem isHead_of_scan {head : List UInt8} (h : (scanChunk .init head).2 = some []) :
    IsHead head := by
  refine isHead_of_scanChunk (l := []) (fun l' hl' hsuffix => ?_) h
  rw [List.prefix_nil.mp hl'] at hsuffix
  exact absurd hsuffix (by decide)

theorem http_limits_iff_get :
    LimitsHold (ascii "GET /") (ascii "GET /" ++ cr :: (lf :: cr :: [lf]))
        (serveRequest ⟨ascii "GET /" ++ cr :: (lf :: cr :: [lf]) ++ [], fun _ => 0, 0⟩).1 ↔
      ((ascii "GET /" ++ cr :: (lf :: cr :: [lf])).length ≤ headLimit →
        (ascii "GET /").length ≤ 254 ∨ 256 < (ascii "GET /").length) ∧
      (headLimit < (ascii "GET /" ++ cr :: (lf :: cr :: [lf])).length →
        CutBeyond (fun _ => 0) (ascii "GET /" ++ cr :: (lf :: cr :: [lf])).length) :=
  http_limits_iff ⟨⟨ascii "GET", [], by decide +kernel, by decide +kernel, by decide +kernel⟩,
    by decide +kernel⟩
    (isHead_of_scan rfl) [] fun _ => 0

/-- A request line and one field. -/
theorem isHead_field {line field : List UInt8} (hline : lf ∉ line) (hfield : lf ∉ field)
    (hne : field ≠ []) : IsHead (line ++ cr :: lf :: (field ++ blankLine)) := by
  refine ⟨⟨line ++ cr :: lf :: field, by simp⟩, ?_⟩
  rintro l ⟨rest, hrest⟩ hproper ⟨before, rfl⟩
  have hlf : ∀ l : List UInt8, lf ∉ l → l.count lf = 0 := fun l => List.count_eq_zero.mpr
  have hcount := congrArg (List.count lf) hrest
  have hrestCount : 0 < rest.count lf := by
    have hnil : rest ≠ [] := by
      rintro rfl
      exact hproper (by rw [← hrest, List.append_nil])
    have hlast := congrArg List.getLast? hrest
    rw [List.getLast?_append_of_ne_nil _ hnil] at hlast
    refine List.count_pos_iff.mpr (List.mem_of_getLast? (hlast.trans ?_))
    rw [← List.cons_append, ← List.cons_append, ← List.append_assoc]
    exact List.getLast?_append_of_ne_nil _ (by decide)
  have hfirst : ∀ a b : List UInt8, lf ∉ a →
      (a ++ cr :: lf :: b).takeWhile (· != lf) = a ++ [cr] := by
    intro a b ha
    have hall : ∀ x ∈ a, (x != lf) = true := by
      intro x hx
      rw [bne_iff_ne]
      rintro rfl
      exact ha hx
    rw [List.takeWhile_append_of_pos hall, List.takeWhile_cons_of_pos (by decide),
      List.takeWhile_cons_of_neg (by simp)]
  have hbefore : lf ∉ before := by
    rw [← List.count_eq_zero]
    have hblank : blankLine.count lf = 2 := by decide
    have hcr : (cr == lf) = false := by decide
    simp only [List.count_append, List.count_cons, hlf line hline, hlf field hfield, hblank, hcr,
      beq_self_eq_true, if_true] at hcount
    simp only [Bool.false_eq_true, if_false] at hcount
    omega
  have hshape : before ++ cr :: lf :: (cr :: lf :: rest) =
      line ++ cr :: lf :: (field ++ blankLine) := by
    rw [← hrest]
    simp [blankLine]
  have hline' := congrArg (List.takeWhile (· != lf)) hshape
  rw [hfirst _ _ hbefore, hfirst _ _ hline, List.append_left_inj] at hline'
  rw [hline', List.append_right_inj] at hshape
  have hfield' := congrArg (List.takeWhile (· != lf)) (List.cons.inj (List.cons.inj hshape).2).2
  have hnone : lf ∉ ([] : List UInt8) := List.not_mem_nil
  exact hne (List.append_left_inj [cr] |>.mp
    ((hfirst field [cr, lf] hfield).symm.trans (hfield'.symm.trans (hfirst [] rest hnone))))

theorem arrived_const (n k : ℕ) : arrived (fun _ => n) k = min chunkSize (n + 1) * k := by
  induction k with
  | zero => rfl
  | succ k ih => rw [arrived, ih, Nat.mul_succ]

/-- A head of 2049 bytes in chunks of 128: the handler is called. -/
theorem http_limits_missed : ¬∀ (line more rest : List UInt8) (cuts : ℕ → ℕ), IsRequestLine line →
    IsHead (line ++ cr :: more) → LimitsHold line (line ++ cr :: more)
      (serveRequest ⟨line ++ cr :: more ++ rest, cuts, 0⟩).1 := by
  intro h
  have hline : IsRequestLine (ascii "GET /") :=
    ⟨⟨ascii "GET", [], by decide +kernel, by decide +kernel, by decide +kernel⟩,
    by decide +kernel⟩
  have hfield : lf ∉ List.replicate 2038 (97 : UInt8) := by
    intro hmem
    exact absurd (List.eq_of_mem_replicate hmem) (by decide)
  have hhead : IsHead (ascii "GET /" ++ cr :: lf :: (List.replicate 2038 97 ++ blankLine)) :=
    isHead_field (by decide +kernel) hfield (List.cons_ne_nil 97 (List.replicate 2037 97))
  have hsize : (ascii "GET /" ++ cr :: lf :: (List.replicate 2038 97 ++ blankLine)).length =
      2049 := by
    rw [List.length_append, List.length_cons, List.length_cons, List.length_append,
      List.length_replicate]
    rfl
  have hcut : ¬CutBeyond (fun _ => 127) 2049 := by
    rintro ⟨k, hlimit, hn⟩
    have harrived : arrived (fun _ => 127) k = 128 * k := arrived_const 127 k
    simp only [headLimit] at hlimit
    omega
  rw [← hsize] at hcut
  have hhandled := serveRequest_short hline hhead [] (fun _ => 127) hcut (by decide +kernel)
  have hwithin := (h _ _ [] (fun _ => 127) hline hhead).handled.mp hhandled
  rw [hsize] at hwithin
  exact absurd hwithin.2 (by decide)

end BekenCam.Http
