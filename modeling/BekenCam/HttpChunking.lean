import BekenCam.HttpRequest

/-!
# Requests do not depend on the packets

The state of the head reader depends on the bytes it was given, not on the chunks they came in:
it stands at the end of the head when these bytes end with the first blank line. The chunk that has
it hands the rest over, so that the body reader sees the bytes behind the head and no others.
-/
namespace BekenCam.Http

/-! ## The blank line -/

def blankLine : List UInt8 := [cr, lf, cr, lf]

/-- How much of the blank line the bytes end with; they are given last byte first. -/
def matched : List UInt8 → ℕ
  | 10 :: 13 :: 10 :: 13 :: _ => 4
  | 13 :: 10 :: 13 :: _ => 3
  | 10 :: 13 :: _ => 2
  | 13 :: _ => 1
  | _ => 0

theorem matched_eq_four {l : List UInt8} : matched l.reverse = 4 ↔ blankLine <:+ l := by
  have hsuffix : blankLine <:+ l ↔ [10, 13, 10, 13] <+: l.reverse := by
    rw [← List.reverse_prefix]
    rfl
  rw [hsuffix]
  constructor
  · intro h
    unfold matched at h
    split at h <;> first | omega | skip
    rename_i rest heq
    rw [heq]
    exact ⟨rest, rfl⟩
  · rintro ⟨rest, hrest⟩
    rw [← hrest]
    rfl

theorem matched_lf {l : List UInt8} (h : ∀ rest, l ≠ 13 :: rest) : matched (10 :: l) = 0 := by
  cases l with
  | nil => rfl
  | cons x l =>
    have hx : x ≠ 13 := fun heq => h l (by rw [heq])
    simp [matched, hx]

theorem matched_other {l : List UInt8} {b : UInt8} (hcr : b ≠ 13) (hlf : b ≠ 10) :
    matched (b :: l) = 0 := by
  simp [matched, hcr, hlf]

theorem nextSeen_other (seen : ℕ) {b : UInt8} (hcr : b ≠ 13) (hlf : b ≠ 10) :
    nextSeen seen b = 0 := by
  unfold nextSeen
  split_ifs <;> simp_all [cr, lf]

/-- The reader's count follows, up to the first blank line. -/
theorem nextSeen_matched (l : List UInt8) (b : UInt8) (h : matched l ≠ 4) :
    nextSeen (matched l) b = matched (b :: l) := by
  by_cases hother : b ≠ 13 ∧ b ≠ 10
  · rw [nextSeen_other _ hother.1 hother.2, matched_other hother.1 hother.2]
  have hb : b = 13 ∨ b = 10 := by
    by_contra hnot
    exact hother (not_or.mp hnot)
  fun_cases matched l with
  | case1 => simp [matched] at h
  | case2 | case3 => rcases hb with rfl | rfl <;> rfl
  | case4 => rcases hb with rfl | rfl <;> simp [matched, nextSeen, cr, lf]
  | case5 _ _ _ _ hnot =>
    rcases hb with rfl | rfl
    · simp [matched, nextSeen, cr]
    · rw [matched_lf fun rest heq => hnot rest heq]
      rfl

/-! ## The head -/

/-- The bytes up to the first blank line, which ends them. -/
structure IsHead (head : List UInt8) : Prop where
  ends : blankLine <:+ head
  first : ∀ l, l <+: head → l ≠ head → ¬ blankLine <:+ l

/-- The reader after these bytes. -/
def headAfter (l : List UInt8) : HeadState := l.foldl HeadState.byte .init

theorem headAfter_concat (l : List UInt8) (b : UInt8) :
    headAfter (l ++ [b]) = (headAfter l).byte b := by
  rw [headAfter, List.foldl_append]
  rfl

/-- Up to the end of the head the count is that of the bytes. -/
theorem seen_headAfter {l : List UInt8} (h : ∀ l', l' <+: l → l' ≠ l → ¬ blankLine <:+ l') :
    (headAfter l).seen = matched l.reverse := by
  induction l using List.reverseRecOn with
  | nil => rfl
  | append_singleton l b ih =>
    have hbefore : ¬ blankLine <:+ l := by
      refine h l (List.prefix_append l [b]) fun heq => ?_
      have hlen := congrArg List.length heq
      simp at hlen
    have hseen := ih fun l' hl' _ hsuffix => by
      refine h l' (hl'.trans (List.prefix_append l [b])) (fun heq => ?_) hsuffix
      have hlen := hl'.length_le
      rw [heq] at hlen
      simp at hlen
    rw [headAfter_concat, List.reverse_concat]
    change nextSeen (headAfter l).seen b = _
    rw [hseen]
    exact nextSeen_matched _ b fun heq => hbefore (matched_eq_four.mp heq)

theorem IsHead.seen {head : List UInt8} (h : IsHead head) : (headAfter head).seen = 4 := by
  rw [seen_headAfter h.first]
  exact matched_eq_four.mpr h.ends

theorem IsHead.seen_ne {head l : List UInt8} (h : IsHead head) (hl : l <+: head) (hne : l ≠ head) :
    (headAfter l).seen ≠ 4 := by
  rw [seen_headAfter fun l' hl' hne' => h.first l' (hl'.trans hl) fun heq =>
    hne (hl.eq_of_length_le (heq ▸ hl'.length_le))]
  exact fun heq => h.first l hl hne (matched_eq_four.mp heq)

/-- A chunk that ends within the head. -/
theorem scanChunk_within {head l chunk more : List UInt8} (h : IsHead head)
    (hhead : head = l ++ chunk ++ more) (hmore : more ≠ []) :
    scanChunk (headAfter l) chunk = (headAfter (l ++ chunk), none) := by
  induction chunk generalizing l with
  | nil => rw [scanChunk, List.append_nil]
  | cons b chunk ih =>
    have hne : (headAfter (l ++ [b])).seen ≠ 4 := by
      refine h.seen_ne ⟨chunk ++ more, by simp [hhead]⟩ fun heq => hmore ?_
      have hlen := congrArg List.length (heq.trans hhead)
      simp only [List.length_append, List.length_cons, List.length_nil] at hlen
      exact List.length_eq_zero_iff.mp (by omega)
    rw [headAfter_concat] at hne
    rw [scanChunk, if_neg hne, ← headAfter_concat, ih (by simp [hhead])]
    simp

/-- A chunk with the end of the head in it. -/
theorem scanChunk_end {head l chunk : List UInt8} (h : IsHead head)
    (hhead : head = l ++ chunk) (hchunk : chunk ≠ []) (pending : List UInt8) :
    scanChunk (headAfter l) (chunk ++ pending) = (headAfter head, some pending) := by
  induction chunk generalizing l with
  | nil => exact absurd rfl hchunk
  | cons b chunk ih =>
    rw [List.cons_append, scanChunk, ← headAfter_concat]
    by_cases hlast : chunk = []
    · subst hlast
      rw [if_pos (hhead ▸ h.seen), hhead]
      rfl
    · have hne : (headAfter (l ++ [b])).seen ≠ 4 := by
        refine h.seen_ne ⟨chunk, by simp [hhead]⟩ fun heq => hlast ?_
        have hlen := congrArg List.length (heq.trans hhead)
        simp only [List.length_append, List.length_cons, List.length_nil] at hlen
        exact List.length_eq_zero_iff.mp (by omega)
      rw [if_neg hne]
      exact ih (by simp [hhead]) hlast

/-- What `lwip_recv` returns is the start of what is to come. -/
theorem Socket.recv_spec {socket : Socket} {size : ℕ} (hsize : 0 < size)
    (hmore : socket.incoming ≠ []) :
    ∃ chunk socket', socket.recv size = some (chunk, socket') ∧ chunk ≠ [] ∧
      chunk.length ≤ size ∧ socket.incoming = chunk ++ socket'.incoming := by
  refine ⟨_, _, if_neg hmore, ?_, ?_, (List.take_append_drop _ _).symm⟩
  · rw [Ne, List.take_eq_nil_iff, not_or]
    exact ⟨by omega, hmore⟩
  · rw [List.length_take]
    omega

/-- However the head is cut, it is read to its end, and what follows it is left. -/
theorem readHeadLoop_spec {head l q rest : List UInt8} {socket : Socket} (h : IsHead head)
    (hhead : head = l ++ q) (hq : q ≠ []) (hincoming : socket.incoming = q ++ rest)
    (hlimit : head.length ≤ headLimit) {fuel : ℕ} (hfuel : q.length ≤ fuel) :
    ∃ pending socket', readHeadLoop fuel (headAfter l) l.length socket =
      (.ok (headAfter head) pending, socket') ∧ pending ++ socket'.incoming = rest := by
  induction fuel generalizing l q socket with
  | zero => exact absurd (List.length_eq_zero_iff.mp (Nat.le_zero.mp hfuel)) hq
  | succ fuel ih =>
    have hmore : socket.incoming ≠ [] := by
      rw [hincoming]
      exact List.append_ne_nil_of_left_ne_nil hq rest
    obtain ⟨chunk, socket', hrecv, hchunk, -, hsplit⟩ :=
      Socket.recv_spec (show 0 < chunkSize by decide) hmore
    rw [hincoming] at hsplit
    have hlen := congrArg List.length hhead
    rw [List.length_append] at hlen
    rcases List.append_eq_append_iff.mp hsplit with ⟨more, hmoreChunk, hrest⟩ | ⟨more, hmoreq, hnext⟩
    · -- the head ends in the chunk
      refine ⟨more, socket', ?_, hrest.symm⟩
      simp only [readHeadLoop, hrecv]
      rw [hmoreChunk, scanChunk_end h hhead hq]
    · by_cases hend : more = []
      · subst hend
        rw [List.append_nil] at hmoreq
        refine ⟨[], socket', ?_, hnext⟩
        have hscan := scanChunk_end h hhead hq []
        rw [List.append_nil, hmoreq] at hscan
        simp only [readHeadLoop, hrecv, hscan]
      · have hhead' : head = l ++ chunk ++ more := by rw [hhead, hmoreq, List.append_assoc]
        have hscan := scanChunk_within h hhead' hend
        have hpos := List.length_pos_iff.mpr hend
        have hchunkPos := List.length_pos_iff.mpr hchunk
        have hq' := congrArg List.length hmoreq
        rw [List.length_append] at hq'
        obtain ⟨pending, socket'', hrun, hleft⟩ :=
          ih hhead' hend hnext (by omega)
        refine ⟨pending, socket'', ?_, hleft⟩
        simp only [readHeadLoop, hrecv, hscan]
        rw [if_neg (by omega), ← List.length_append]
        exact hrun

theorem readHead_spec {head rest : List UInt8} {socket : Socket} (h : IsHead head)
    (hlimit : head.length ≤ headLimit) (hincoming : socket.incoming = head ++ rest) :
    ∃ pending socket', readHead socket = (.ok (headAfter head) pending, socket') ∧
      pending ++ socket'.incoming = rest := by
  have hne : head ≠ [] := by
    rintro rfl
    exact absurd h.ends (by decide)
  exact readHeadLoop_spec (l := []) h rfl hne hincoming hlimit (by omega)

/-! ## The body -/

/-- What there is for the body reader: the bytes behind the head. -/
def Conn.following (conn : Conn) : List UInt8 := conn.pending ++ conn.socket.incoming

/-- One round takes the next bytes, as many as there are in one place. -/
theorem readBodyLoop_round {size fuel : ℕ} {conn : Conn} {out : List UInt8}
    (hmore : out.length < size ∧ 0 < conn.bodyLeft) (hfollowing : conn.following ≠ []) :
    ∃ got conn', readBodyLoop size (fuel + 1) conn out = readBodyLoop size fuel conn' (out ++ got) ∧
      got ≠ [] ∧ got.length ≤ min (size - out.length) conn.bodyLeft ∧
      conn.following = got ++ conn'.following ∧ conn'.bodyLeft = conn.bodyLeft - got.length := by
  have hwant : 0 < min (size - out.length) conn.bodyLeft := by omega
  by_cases hpending : conn.pending = []
  · have hincoming : conn.socket.incoming ≠ [] := by
      rwa [Conn.following, hpending, List.nil_append] at hfollowing
    obtain ⟨got, socket', hrecv, hgot, hle, hsplit⟩ := Socket.recv_spec hwant hincoming
    refine ⟨got, { conn with socket := socket', bodyLeft := conn.bodyLeft - got.length }, ?_, hgot,
      hle, ?_, rfl⟩
    · simp only [readBodyLoop, if_pos hmore, if_pos hpending, hrecv]
    · simp only [Conn.following, hpending, List.nil_append, hsplit]
  · refine ⟨conn.pending.take (min (size - out.length) conn.bodyLeft),
      { conn with
        pending := conn.pending.drop (min (size - out.length) conn.bodyLeft)
        bodyLeft := conn.bodyLeft -
          (conn.pending.take (min (size - out.length) conn.bodyLeft)).length }, ?_, ?_, ?_, ?_, rfl⟩
    · simp only [readBodyLoop, if_pos hmore, if_neg hpending]
    · rw [Ne, List.take_eq_nil_iff, not_or]
      exact ⟨by omega, hpending⟩
    · rw [List.length_take]
      omega
    · simp only [Conn.following]
      rw [← List.append_assoc, List.take_append_drop]

/-- A read fills the buffer or ends the body, if the bytes for it come. -/
theorem readBodyLoop_spec (size : ℕ) {fuel : ℕ} (conn : Conn) (out : List UInt8)
    (hfuel : size - out.length ≤ fuel) {want : ℕ}
    (hwant : want = min (size - out.length) conn.bodyLeft) :
    if want ≤ conn.following.length then
      ∃ conn', readBodyLoop size fuel conn out = (some (out ++ conn.following.take want), conn') ∧
        conn'.following = conn.following.drop want ∧ conn'.bodyLeft = conn.bodyLeft - want
    else
      ∃ conn', readBodyLoop size fuel conn out = (none, conn') ∧ conn'.following = [] ∧
        conn'.bodyLeft = conn.bodyLeft - conn.following.length := by
  induction fuel generalizing conn out want with
  | zero =>
    have hzero : want = 0 := by omega
    rw [hzero, if_pos (Nat.zero_le _)]
    exact ⟨conn, by simp [readBodyLoop], rfl, rfl⟩
  | succ fuel ih =>
    by_cases hmore : out.length < size ∧ 0 < conn.bodyLeft
    · by_cases hfollowing : conn.following = []
      · have hpending : conn.pending = [] := (List.append_eq_nil_iff.mp hfollowing).1
        have hincoming : conn.socket.incoming = [] := (List.append_eq_nil_iff.mp hfollowing).2
        rw [hfollowing, List.length_nil, if_neg (by omega)]
        refine ⟨conn, ?_, hfollowing, rfl⟩
        simp only [readBodyLoop, if_pos hmore, if_pos hpending, Socket.recv, if_pos hincoming]
      · obtain ⟨got, conn', hround, hgot, hle, hsplit, hleft⟩ :=
          readBodyLoop_round hmore hfollowing
        have hpos := List.length_pos_iff.mpr hgot
        have hlen := congrArg List.length hsplit
        rw [List.length_append] at hlen
        have hout : (out ++ got).length = out.length + got.length := List.length_append
        have hwant' : want - got.length =
            min (size - (out ++ got).length) conn'.bodyLeft := by omega
        have hrest := ih conn' (out ++ got) (by omega) hwant'
        rw [hround]
        split_ifs at hrest ⊢ with hshort hlong hlong
        · obtain ⟨conn'', hrun, hdrop, hbody⟩ := hrest
          refine ⟨conn'', ?_, ?_, by omega⟩
          · have htake : conn.following.take want =
                got ++ conn'.following.take (want - got.length) := by
              rw [hsplit, List.take_append, List.take_of_length_le (by omega)]
            rw [hrun, htake, List.append_assoc]
          · rw [hdrop, hsplit, List.drop_append,
              List.drop_eq_nil_of_le (show got.length ≤ want by omega), List.nil_append]
        · omega
        · omega
        · obtain ⟨conn'', hrun, hnone, hbody⟩ := hrest
          exact ⟨conn'', hrun, hnone, by omega⟩
    · have hzero : want = 0 := by omega
      rw [hzero, if_pos (Nat.zero_le _)]
      refine ⟨conn, ?_, rfl, rfl⟩
      simp [readBodyLoop, if_neg hmore]

/-- What reads into buffers of these sizes give when `left` bytes of the body are left and
`following` is all that comes. -/
def bodyReads : List UInt8 → ℕ → List ℕ → List (Option (List UInt8))
  | _, _, [] => []
  | following, left, size :: sizes =>
    if min size left ≤ following.length then
      some (following.take (min size left)) ::
        bodyReads (following.drop (min size left)) (left - min size left) sizes
    else none :: bodyReads [] (left - following.length) sizes

theorem readBodies_eq (conn : Conn) (sizes : List ℕ) :
    readBodies conn sizes = bodyReads conn.following conn.bodyLeft sizes := by
  induction sizes generalizing conn with
  | nil => rfl
  | cons size sizes ih =>
    have hwant : min size conn.bodyLeft =
        min (size - ([] : List UInt8).length) conn.bodyLeft := rfl
    have hspec := readBodyLoop_spec size conn [] (Nat.sub_le size _) hwant
    rw [readBodies, bodyReads, readBody]
    split_ifs at hspec ⊢ with hlong
    · obtain ⟨conn', hrun, hfollowing, hleft⟩ := hspec
      rw [hrun, ih, hfollowing, hleft]
      rfl
    · obtain ⟨conn', hrun, hfollowing, hleft⟩ := hspec
      rw [hrun, ih, hfollowing, hleft]

/-- With the whole body to come every read returns, and the reads put it together. -/
theorem bodyReads_whole {following : List UInt8} {left : ℕ} (h : left ≤ following.length)
    (sizes : List ℕ) : ∃ reads : List (List UInt8),
      bodyReads following left sizes = reads.map some ∧
        reads.flatten = following.take (min sizes.sum left) := by
  induction sizes generalizing following left with
  | nil => exact ⟨[], rfl, by simp⟩
  | cons size sizes ih =>
    have hle : left - min size left ≤ (following.drop (min size left)).length := by
      rw [List.length_drop]
      omega
    obtain ⟨reads, hreads, hflatten⟩ := ih hle
    refine ⟨following.take (min size left) :: reads, ?_, ?_⟩
    · rw [bodyReads, if_pos (by omega), hreads]
      rfl
    · rw [List.flatten_cons, hflatten, ← List.take_add, List.sum_cons]
      congr 1
      omega

/-! ## Every stream -/

theorem parseRequestLine_error {head : HeadState} {status : ℕ}
    (h : parseRequestLine head = .error status) : status = 400 ∨ status = 414 := by
  unfold parseRequestLine at h
  dsimp only at h
  split_ifs at h with hline htruncated <;> cases h <;> simp

/-- What is left for the handler of a request that was accepted. -/
theorem serveRequest_spec {head rest : List UInt8} (socket : Socket) (h : IsHead head)
    (hlimit : head.length ≤ headLimit) (hincoming : socket.incoming = head ++ rest) :
    (∀ status, parseRequestLine (headAfter head) = .error status →
      (serveRequest socket).1 = .rejected status) ∧
    ∀ request, parseRequestLine (headAfter head) = .ok request →
      (serveRequest socket).1 = .handled request ∧ (serveRequest socket).2.following = rest ∧
        (serveRequest socket).2.bodyLeft = request.contentLength.toNat := by
  obtain ⟨pending, socket', hread, hrest⟩ := readHead_spec h hlimit hincoming
  unfold serveRequest
  rw [hread]
  refine ⟨fun status hstatus => ?_, fun request hrequest => ?_⟩
  · simp only [hstatus]
  · simp only [hrequest, true_and, and_true]
    exact hrest

/-- The pieces in which a request arrives change neither the decision nor the body. -/
theorem http_request_chunking {head : List UInt8} (h : IsHead head)
    (hlimit : head.length ≤ headLimit) (rest : List UInt8) (cuts cuts' : ℕ → ℕ) :
    (serveRequest ⟨head ++ rest, cuts, 0⟩).1 = (serveRequest ⟨head ++ rest, cuts', 0⟩).1 ∧
    ((∃ request, (serveRequest ⟨head ++ rest, cuts, 0⟩).1 = .handled request) ∨
      (serveRequest ⟨head ++ rest, cuts, 0⟩).1 = .rejected 400 ∨
      (serveRequest ⟨head ++ rest, cuts, 0⟩).1 = .rejected 414) ∧
    ∀ request, (serveRequest ⟨head ++ rest, cuts, 0⟩).1 = .handled request → ∀ sizes,
      readBodies (serveRequest ⟨head ++ rest, cuts, 0⟩).2 sizes =
        bodyReads rest request.contentLength.toNat sizes ∧
      (request.contentLength.toNat ≤ rest.length → ∃ reads : List (List UInt8),
        readBodies (serveRequest ⟨head ++ rest, cuts, 0⟩).2 sizes = reads.map some ∧
        reads.flatten = rest.take (min sizes.sum request.contentLength.toNat)) := by
  obtain ⟨herror, hok⟩ := serveRequest_spec ⟨head ++ rest, cuts, 0⟩ h hlimit rfl
  obtain ⟨herror', hok'⟩ := serveRequest_spec ⟨head ++ rest, cuts', 0⟩ h hlimit rfl
  cases hparse : parseRequestLine (headAfter head) with
  | error status =>
    have hrejected := herror status hparse
    refine ⟨hrejected.trans (herror' status hparse).symm, ?_, fun request hrequest => ?_⟩
    · rcases parseRequestLine_error hparse with rfl | rfl
      · exact .inr (.inl hrejected)
      · exact .inr (.inr hrejected)
    · rw [hrejected] at hrequest
      cases hrequest
  | ok request =>
    obtain ⟨hhandled, hfollowing, hleft⟩ := hok request hparse
    refine ⟨hhandled.trans (hok' request hparse).1.symm, .inl ⟨request, hhandled⟩,
      fun request' hrequest' sizes => ?_⟩
    obtain rfl : request = request' := Decision.handled.inj (hhandled.symm.trans hrequest')
    have hreads := readBodies_eq (serveRequest ⟨head ++ rest, cuts, 0⟩).2 sizes
    rw [hfollowing, hleft] at hreads
    refine ⟨hreads, fun hwhole => ?_⟩
    rw [hreads]
    exact bodyReads_whole hwhole sizes

theorem isHead_of_inits {head : List UInt8} (hends : blankLine <:+ head)
    (hfirst : ∀ l ∈ head.inits, l ≠ head → ¬ blankLine <:+ l) : IsHead head :=
  ⟨hends, fun l hl => hfirst l ((List.mem_inits l head).mpr hl)⟩

/-- A request with a body of three bytes. -/
def postHead : List UInt8 := ascii "POST /a?b HTTP/1.1\r\nContent-Length: 3\r\n\r\n"

/-- Byte by byte, or all at once with the start of another request behind the body. -/
theorem http_request_chunking_post :
    (serveRequest ⟨postHead ++ [1, 2, 3, 4], fun _ => 0, 0⟩).1 =
      (serveRequest ⟨postHead ++ [1, 2, 3, 4], fun _ => 127, 0⟩).1 ∧
    (serveRequest ⟨postHead ++ [1, 2, 3, 4], fun _ => 0, 0⟩).1 =
      .handled ⟨ascii "POST", ascii "/a", ascii "b", 3⟩ ∧
    readBodies (serveRequest ⟨postHead ++ [1, 2, 3, 4], fun _ => 0, 0⟩).2 [2, 2, 2] =
      [some [1, 2], some [3], some []] := by
  have hhead : IsHead postHead := isHead_of_inits (by decide +kernel) (by decide +kernel)
  have hlimit : postHead.length ≤ headLimit := by decide +kernel
  have hhandled : (serveRequest ⟨postHead ++ [1, 2, 3, 4], fun _ => 0, 0⟩).1 =
      .handled ⟨ascii "POST", ascii "/a", ascii "b", 3⟩ := by decide +kernel
  obtain ⟨hsame, -, hreads⟩ := http_request_chunking hhead hlimit [1, 2, 3, 4] (fun _ => 0)
    (fun _ => 127)
  exact ⟨hsame, hhandled, (hreads _ hhandled [2, 2, 2]).1.trans (by decide +kernel)⟩

end BekenCam.Http
