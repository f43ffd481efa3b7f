import BekenCam.FlashKvRefinement

/-!
# Losing power during a write

Programming stops after any number of whole bytes, in address order; reads change
nothing and an erase either has not started or is complete. A call that is cut short
leaves the old sector, the old log with the front of one record behind it, or the
front of a fresh image. In all three the log ends where the record that was cut
begins, unless the missing bytes happen to be the erased ones.
-/
namespace BekenCam.FlashKv

open Prog

/-! ## Where a call can stop -/

/-- What a command that is cut short leaves behind. -/
def cutNor : FlashCmd → Sector → Sector → Prop
  | .flashWrite off src, s, s' => ∃ n, s'.bytes = program s.bytes off (src.take n)
  | _, _, _ => False

theorem interrupted_quiet {α : Type} {m : FlashM α} (hm : Quiet m) {s s' : Sector}
    {done : List FlashCmd} (hi : Interrupted nor cutNor m s done s') :
    s' = s ∧ FlashCmd.flashEraseSector ∉ done := by
  have hcut : ∀ c : FlashCmd, c.isQuiet = true → ∀ s s', cutNor c s s' → s' = s := by
    intro c hc s s' hp
    cases c <;> simp_all [cutNor, FlashCmd.isQuiet]
  obtain ⟨hs, hq⟩ := interrupted_of_only nor_snd_of_isQuiet hcut hm hi
  refine ⟨hs, fun hmem => ?_⟩
  have h := hq _ hmem
  simp [FlashCmd.isQuiet] at h

theorem calls_not_erase {α : Type} {m : FlashM α} (hm : Quiet m) (s : Sector) :
    FlashCmd.flashEraseSector ∉ calls nor m s := by
  intro hc
  have h := calls_of_only nor hm s _ hc
  simp [FlashCmd.isQuiet] at h

/-- Nothing happens while a call only reads; then it goes on with what it has read. -/
theorem interrupted_quiet_bind {α β : Type} {m : FlashM α} {f : α → FlashM β} (hm : Quiet m)
    {s s' : Sector} {a : α} (hrun : exec m s = (a, s)) {done : List FlashCmd}
    (hi : Interrupted nor cutNor (m >>= f) s done s') :
    (s' = s ∧ FlashCmd.flashEraseSector ∉ done) ∨
      ∃ ds, Interrupted nor cutNor (f a) s ds s' ∧
        (FlashCmd.flashEraseSector ∈ done) = (FlashCmd.flashEraseSector ∈ ds) := by
  rcases interrupted_bind hi with hfirst | ⟨ds, rfl, hrest⟩
  · exact .inl (interrupted_quiet hm hfirst)
  · unfold exec at hrun
    rw [hrun] at hrest
    refine .inr ⟨ds, hrest, propext ?_⟩
    rw [List.mem_append]
    exact or_iff_right (calls_not_erase hm s)

/-- A verified write into erased bytes leaves a front of what it wanted to write. -/
theorem interrupted_writeVerified (front : List UInt8) {src : List UInt8}
    (h : front.length + src.length ≤ 4096) {s' : Sector} {done : List FlashCmd}
    (hi : Interrupted nor cutNor (writeVerified front.length src) (padded front) done s') :
    (∃ n, s' = padded (front ++ src.take n)) ∧ FlashCmd.flashEraseSector ∉ done := by
  rw [writeVerified] at hi
  rcases interrupted_call hi with ⟨rfl, rfl | ⟨n, hn⟩⟩ | ⟨ds, rfl, hrest⟩
  · exact ⟨⟨0, by simp⟩, by simp⟩
  · refine ⟨⟨n, Sector.ext ?_⟩, by simp⟩
    have hle : (src.take n).length ≤ src.length := by simp
    rw [hn, program_padded (by omega)]
  · obtain ⟨hs, hds⟩ := interrupted_quiet (quiet_readBack _ _ _) hrest
    refine ⟨⟨src.length, ?_⟩, by simpa using hds⟩
    rw [hs, List.take_length]
    exact Sector.ext (program_padded h)

/-- The sectors a call can leave behind when it is cut short. -/
inductive CutShort (s : Sector) (w : WriteCall) (erased : Prop) : Sector → Prop
  | before (he : ¬erased) : CutShort s w erased s
  | append (he : ¬erased) (n : ℕ) (hw : w.Valid) (hs : stateOf s = .valid)
      (hfit : (log s).stop + recordSize w.value.length ≤ 4096) :
      CutShort s w erased
        (padded (s.bytes.take (log s).stop ++ (encodeRecord w.key w.value).take n))
  | rebuild (he : erased) (n : ℕ) (hw : w.Valid)
      (hfit : 8 + tableSize (newTable s w.key w.value) ≤ 4096) :
      CutShort s w erased
        (padded ((encodeHeader ++ encodeTable (newTable s w.key w.value)).take n))

theorem interrupted_rebuild {s s' : Sector} {w : WriteCall} (hw : w.Valid) {done : List FlashCmd}
    (hi : Interrupted nor cutNor (rebuild (stateOf s) w.key w.value) s done s') :
    CutShort s w (FlashCmd.flashEraseSector ∈ done) s' := by
  obtain ⟨img, hrun, hholds, hover⟩ := exec_collectImage s
  have hshort : ∀ e ∈ survivors s, e.2.length ≤ 256 := fun e he => (survivors_storable s e he).2
  obtain ⟨hok, -, hres⟩ := imagePut_spec hholds hshort w.key w.value
  rw [← newTable] at hok hres
  rcases interrupted_quiet_bind (quiet_collectImage _) hrun hi with ⟨rfl, hn⟩ | ⟨ds, hi, hmem⟩
  · exact .before hn
  rw [if_neg (by simp [hover])] at hi
  rw [hmem]
  dsimp only at hi
  by_cases hfit : 8 + tableSize (newTable s w.key w.value) ≤ 4096
  · rw [hok, decide_eq_true hfit, if_neg (by simp)] at hi
    rcases interrupted_call hi with ⟨rfl, rfl | hpart⟩ | ⟨es, rfl, hrest⟩
    · exact .before (by simp)
    · exact hpart.elim
    · rw [(hres hfit).take] at hrest
      have hpad : (nor .flashEraseSector s).2 = padded [] := erased_eq_padded
      rw [hpad] at hrest
      obtain ⟨⟨n, rfl⟩, -⟩ := interrupted_writeVerified [] (by simpa using hfit) hrest
      exact .rebuild (by simp) n hw hfit
  · rw [hok, decide_eq_false hfit, if_pos (by simp)] at hi
    obtain ⟨rfl, rfl⟩ := interrupted_ret hi
    exact .before (by simp)

theorem interrupted_append {s s' : Sector} {w : WriteCall} (hw : w.Valid) {done : List FlashCmd}
    (hi : Interrupted nor cutNor (append w.key w.value) s done s') :
    CutShort s w (FlashCmd.flashEraseSector ∈ done) s' := by
  rcases interrupted_quiet_bind quiet_scan (exec_scan s) hi with ⟨rfl, hn⟩ | ⟨ds, hi, hmem⟩
  · exact .before hn
  rw [hmem]
  dsimp only at hi
  split_ifs at hi with hv h h
  · exact absurd ((stateOf_valid_iff s).mp h.1).1 hv
  · exact interrupted_rebuild hw hi
  · obtain ⟨hs, hfit⟩ := h
    obtain ⟨-, -, ht⟩ := (stateOf_valid_iff s).mp hs
    have hlen : (s.bytes.take (log s).stop).length = (log s).stop := by
      rw [List.length_take, s.size]
      exact Nat.min_eq_left (log_stop_le s)
    have hpad := padded_of_tailBlank (log_stop_le s) ht
    have hi' : Interrupted nor cutNor (writeVerified (s.bytes.take (log s).stop).length
        (encodeRecord w.key w.value)) (padded (s.bytes.take (log s).stop)) ds s' := by
      rw [hlen, hpad]
      exact hi
    obtain ⟨⟨n, rfl⟩, hn⟩ := interrupted_writeVerified _
      (by rw [hlen, length_encodeRecord]; exact hfit) hi'
    exact .append hn n hw hs hfit
  · exact interrupted_rebuild hw hi

/-- Every way a call can be cut short. -/
theorem interrupted_write {s s' : Sector} {w : WriteCall} {done : List FlashCmd}
    (hi : Interrupted nor cutNor w.prog s done s') :
    CutShort s w (FlashCmd.flashEraseSector ∈ done) s' := by
  rw [w.prog_eq] at hi
  by_cases hw : w.Valid
  · rcases interrupted_quiet_bind w.quiet_check (exec_check hw s) hi with ⟨rfl, hn⟩ | ⟨ds, hi, hmem⟩
    · exact .before hn
    rw [hmem]
    split_ifs at hi
    · obtain ⟨rfl, rfl⟩ := interrupted_ret hi
      exact .before (by simp)
    · exact interrupted_append hw hi
  · rcases interrupted_quiet_bind w.quiet_check (exec_check_invalid hw s) hi with
      ⟨rfl, hn⟩ | ⟨ds, hi, hmem⟩
    · exact .before hn
    · obtain ⟨rfl, rfl⟩ := interrupted_ret hi
      rw [hmem]
      exact .before (by simp)

/-! ## Records that are cut short -/

/-- A record of which only the first `n` bytes were programmed. -/
def tornRecord (key : UInt16) (value : List UInt8) (n : ℕ) : List UInt8 :=
  (encodeRecord key value).take n ++ blank (recordSize value.length - n)

/-- The checksum at the end of a record matches its own head and value. -/
def CrcMatches (record : List UInt8) : Prop :=
  let len := (readU16le (record.drop 2)).toNat
  len ≤ flashKvMaxValueLen ∧
    readU32le (slice record (recordHeadSize + align4 len) recordCrcSize) =
      recordCrc (slice record 0 recordHeadSize) (slice record recordHeadSize len)

instance (record : List UInt8) : Decidable (CrcMatches record) :=
  inferInstanceAs (Decidable (_ ∧ _))

/-- No partially programmed copy of the record, other than the complete one, happens to
satisfy its own checksum. -/
def TearDetected (key : UInt16) (value : List UInt8) : Prop :=
  ∀ n < recordSize value.length, tornRecord key value n ≠ encodeRecord key value →
    ¬CrcMatches (tornRecord key value n)

instance (key : UInt16) (value : List UInt8) : Decidable (TearDetected key value) :=
  inferInstanceAs (Decidable (∀ n < _, _))

theorem length_tornRecord (key : UInt16) (value : List UInt8) (n : ℕ) :
    (tornRecord key value n).length = recordSize value.length := by
  simp [tornRecord]
  omega

theorem padded_append_blank (front : List UInt8) (m : ℕ) :
    padded (front ++ blank m) = padded front := by
  apply Sector.ext
  simp only [padded, List.append_assoc, ← blank_add]
  rw [Nat.add_comm, blank_add, ← List.append_assoc, List.take_append_of_le_length (by simp)]

/-- A front of a record leaves the same bytes as the torn record. -/
theorem padded_take_record (front : List UInt8) (key : UInt16) (value : List UInt8) (n : ℕ) :
    padded (front ++ (encodeRecord key value).take n) = padded (front ++ tornRecord key value n) := by
  rw [tornRecord, ← List.append_assoc, padded_append_blank]

/-- A head that was cut short has an impossible length. -/
theorem length_of_torn_head {n : ℕ} (hn : n < 4) (key : UInt16) (value : List UInt8) :
    0xFF00 ≤ (readU16le ((tornRecord key value n).drop 2)).toNat := by
  have hsize := recordSize_eq value.length
  have hblank : blank (recordSize value.length - n) =
      blank (4 - n) ++ blank (recordSize value.length - 4) := by
    rw [← blank_add]
    congr 1
    omega
  have htorn : tornRecord key value n = (recordHead key value.length).take n ++
      (blank (4 - n) ++ blank (recordSize value.length - 4)) := by
    rw [tornRecord, encodeRecord_eq, List.take_append_of_le_length (by simp; omega), hblank]
  rw [htorn]
  -- whatever the cut, the byte at offset 3 is still erased
  interval_cases n <;>
    simp only [recordHead, writeU16le, blank, List.replicate, List.cons_append, List.nil_append,
      List.take_zero, List.take_succ_cons, List.drop_succ_cons, List.drop_zero, Nat.reduceSub,
      readU16le_toNat] <;>
    have h : (255 : UInt8).toNat = 255 := rfl <;>
    omega

/-- A head that was written in full names the key and the length. -/
theorem head_of_torn {n : ℕ} (hn : 4 ≤ n) (key : UInt16) (value : List UInt8) :
    slice (tornRecord key value n) 0 4 = recordHead key value.length := by
  rw [tornRecord, encodeRecord_eq, List.take_append, List.take_of_length_le (by simpa using hn),
    List.append_assoc]
  exact slice_append_self (recordHead key value.length) _

theorem length_of_head {record : List UInt8} {key : UInt16} {len : ℕ}
    (h : slice record 0 4 = recordHead key len) (hlen : len ≤ 256) :
    (readU16le (record.drop 2)).toNat = len := by
  have hsplit := drop_eq_slice_append record 0 4
  rw [List.drop_zero, h] at hsplit
  rw [hsplit, readU16le_recordHead_drop, UInt16.toNat_ofNat']
  omega

/-- The loop of `walk` does not take a torn record for a valid one. -/
theorem entryAt_torn (front : List UInt8) {key : UInt16} {value : List UInt8} {n : ℕ}
    (hlen : value.length ≤ 256) (hfit : front.length + recordSize value.length ≤ 4096)
    (hcrc : ¬CrcMatches (tornRecord key value n)) (k : UInt16) (v : List UInt8) :
    entryAt (padded (front ++ tornRecord key value n)) front.length ≠ .valid k v := by
  intro h
  obtain ⟨-, hv, -, hhead, hvalue, hsum⟩ := (entryAt_valid_iff _ _ _ _).mp h
  have hb := recordSize_eq value.length
  have ha := le_align4 value.length
  have htl := length_tornRecord key value n
  have hsub : ∀ i m, i + m ≤ recordSize value.length →
      slice (padded (front ++ tornRecord key value n)).bytes (front.length + i) m =
        slice (tornRecord key value n) i m := by
    intro i m him
    rw [padded_bytes (by rw [List.length_append, htl]; exact hfit), List.append_assoc]
    simp only [slice, List.drop_append, Nat.add_sub_cancel_left]
    rw [List.drop_eq_nil_of_le (by omega), List.nil_append,
      List.take_append_of_le_length (by rw [List.length_drop]; omega)]
  have hhead' := hsub 0 4 (by omega)
  rw [Nat.add_zero, hhead] at hhead'
  have hlen' := length_of_head hhead'.symm hv
  by_cases hn : n < 4
  · have hbig := length_of_torn_head hn key value
    omega
  · have hsame := length_of_head (head_of_torn (not_lt.mp hn) key value) hlen
    have hvl : v.length = value.length := by omega
    refine hcrc ⟨by rw [hsame]; exact hlen, ?_⟩
    rw [hvl] at hvalue hsum hhead'
    rw [hsub 4 value.length (by omega)] at hvalue
    rw [Nat.add_assoc, hsub (4 + align4 value.length) 4 (by omega)] at hsum
    simp only [hsame, recordHeadSize, recordCrcSize]
    rw [hsum, hvalue, ← hhead']

/-- A record without a value is all head and checksum, so any tear in it shows. -/
theorem tearDetected_nil (key : UInt16) : TearDetected key [] := by
  rintro n hn hne ⟨hlen, hsum⟩
  have hn4 : 4 ≤ n := by
    by_contra hc
    have hbig := length_of_torn_head (not_le.mp hc) key []
    simp only [flashKvMaxValueLen] at hlen
    omega
  have hhead := head_of_torn hn4 key []
  have htl := length_tornRecord key [] n
  have hl := length_of_head hhead (by simp)
  rw [List.length_nil] at hhead hl
  have hv : slice (tornRecord key [] n) 4 0 = [] := by simp [slice]
  simp only [hl, recordHeadSize, recordCrcSize, show 4 + align4 0 = 4 from rfl, hhead, hv] at hsum
  have hsplit := drop_eq_slice_append (tornRecord key [] n) 0 4
  rw [List.drop_zero, hhead] at hsplit
  have hrest : ((tornRecord key [] n).drop 4).length = 4 := by
    rw [List.length_drop, htl]
    rfl
  apply hne
  rw [hsplit, encodeRecord_eq, Nat.zero_add]
  rw [slice, List.take_of_length_le (by omega)] at hsum
  obtain ⟨a, b, c, d, hc⟩ := List.length_eq_four.mp hrest
  rw [hc] at hsum ⊢
  have hw := writeU32le_readU32le a b c d []
  rw [hsum] at hw
  rw [← hw]
  rfl

/-- The log behind `a`, when a table is written there and cut short: a front of the table. -/
theorem logFrom_torn_table {a : List UInt8} {t : Table} (n : ℕ) (hmod : a.length % 4 = 0)
    (hst : ∀ e ∈ t, Storable e) (hcrc : ∀ e ∈ t, TearDetected e.1 e.2)
    (hfit : a.length + tableSize t ≤ 4096) :
    ∃ j, (logFrom (padded (a ++ (encodeTable t).take n)) a.length).records =
      layout a.length (t.take j) := by
  induction t generalizing a n with
  | nil =>
    refine ⟨0, ?_⟩
    rw [tableSize_nil] at hfit
    rw [encodeTable_nil, List.take_nil, List.append_nil,
      logFrom_of_tailBlank (by omega) (padded_tailBlank (by omega))]
    rfl
  | cons e t ih =>
    have hst' : ∀ e ∈ t, Storable e := fun e he => hst e (by simp [he])
    have hcrc' : ∀ e ∈ t, TearDetected e.1 e.2 := fun e he => hcrc e (by simp [he])
    have hrmod := recordSize_mod e.2.length
    have hal : (a ++ encodeRecord e.1 e.2).length = a.length + recordSize e.2.length := by simp
    rw [tableSize_cons] at hfit
    -- once the first record is complete, the rest is a shorter table behind it
    have hfull : ∀ m, ∃ j,
        (logFrom (padded (a ++ (encodeRecord e.1 e.2 ++ (encodeTable t).take m))) a.length).records =
          layout a.length ((e :: t).take j) := by
      intro m
      obtain ⟨j, hj⟩ := ih (a := a ++ encodeRecord e.1 e.2) m (by omega) hst' hcrc' (by omega)
      have hle : ((encodeTable t).take m).length ≤ tableSize t := by
        rw [List.length_take, length_encodeTable]
        exact Nat.min_le_right _ _
      have hentry : entryAt (padded (a ++ (encodeRecord e.1 e.2 ++ (encodeTable t).take m)))
          a.length = .valid e.1 e.2 := by
        apply entryAt_encodeRecord (hst e (by simp)) (by omega)
        rw [padded_bytes (by simp only [List.length_append, length_encodeRecord]; omega),
          List.append_assoc, List.append_assoc]
        simpa using slice_middle a (encodeRecord e.1 e.2) _
      refine ⟨j + 1, ?_⟩
      rw [logFrom_valid hentry, ← hal, ← List.append_assoc, hj, hal]
      rfl
    rw [encodeTable_cons]
    rcases Nat.lt_or_ge n (recordSize e.2.length) with hn | hn
    · rw [List.take_append_of_le_length (by rw [length_encodeRecord]; omega), padded_take_record]
      by_cases hsame : tornRecord e.1 e.2 n = encodeRecord e.1 e.2
      · rw [hsame]
        simpa using hfull 0
      · refine ⟨0, ?_⟩
        have hno := entryAt_torn a (hst e (by simp)).2 (by omega)
          (hcrc e (by simp) n hn hsame)
        cases hentry : entryAt (padded (a ++ tornRecord e.1 e.2 n)) a.length with
        | finished => rw [logFrom_finished hentry]; rfl
        | broken => rw [logFrom_broken hentry]; rfl
        | valid k v => exact absurd hentry (hno k v)
    · rw [List.take_append, List.take_of_length_le (by rw [length_encodeRecord]; exact hn)]
      exact hfull _

/-! ## What can be read after the power is back -/

/-- An append that is cut short has happened or not. -/
theorem kvMap_torn_append {s : Sector} {key : UInt16} {value : List UInt8} (n : ℕ)
    (hst : Storable (key, value)) (hcrc : TearDetected key value) (hs : stateOf s = .valid)
    (hfit : (log s).stop + recordSize value.length ≤ 4096) :
    let s' := padded (s.bytes.take (log s).stop ++ (encodeRecord key value).take n)
    kvMap s' = kvMap s ∨ kvMap s' = Function.update (kvMap s) key (liveValue value) := by
  intro s'
  have hh := ((stateOf_valid_iff s).mp hs).1
  have hstop := log_stop_eq s
  have hmod := recordsSize_mod (log s).records
  have hlen : (s.bytes.take (log s).stop).length = (log s).stop := by
    rw [List.length_take, s.size]
    exact Nat.min_eq_left (log_stop_le s)
  have hle : ((encodeRecord key value).take n).length ≤ recordSize value.length := by
    rw [List.length_take, length_encodeRecord]
    exact Nat.min_le_right _ _
  have htake : s.bytes.take (log s).stop = s'.bytes.take (log s).stop := by
    rw [padded_bytes (by rw [List.length_append]; omega), List.append_assoc, List.take_left' hlen]
  obtain ⟨j, hj⟩ := logFrom_torn_table (a := s.bytes.take (log s).stop) (t := [(key, value)]) n
    (by omega) (by simpa using hst) (by simpa using hcrc) (by simpa [hlen] using hfit)
  rw [hlen, encodeTable_cons, encodeTable_nil, List.append_nil] at hj
  have hlog := logFrom_of_chain (chain_congr htake (chain_log s))
  have hrec : (log s').records =
      (log s).records ++ layout (log s).stop ([(key, value)].take j) := by
    rw [log, headerSize, hlog]
    exact congrArg ((log s).records ++ ·) hj
  rw [kvMap_of_header ((headerOf_congr (by omega) htake).trans hh), kvMap_of_header hh, hrec]
  cases j with
  | zero => simp [layout]
  | succ j => simp [layout, logEntries]

theorem headerOf_torn_header {n : ℕ} (hn : n < 8) (rest : List UInt8) :
    headerOf (padded ((encodeHeader ++ rest).take n)) ≠ .valid := by
  intro h
  have hslice := encodeHeader_of_headerOf h
  have hblank : ∀ m, 8 ≤ m → slice (encodeHeader.take n ++ blank m) 0 8 =
      encodeHeader.take n ++ blank (8 - n) := by
    intro m hm
    rw [slice, List.drop_zero, List.take_append, List.take_of_length_le (by simp)]
    congr 1
    rw [blank, List.take_replicate]
    simp only [List.length_take, length_encodeHeader, blank]
    congr 1
    omega
  rw [List.take_append_of_le_length (by simp; omega), padded_bytes (by simp),
    hblank _ (by simp; omega)] at hslice
  interval_cases n <;> exact absurd hslice (by decide)

/-- An image that is cut short holds some of the new values, and nothing else. -/
theorem kvMap_torn_image {t : Table} (n : ℕ) (hnodup : (t.map Prod.fst).Nodup)
    (hst : ∀ e ∈ t, Storable e ∧ e.2 ≠ []) (hcrc : ∀ e ∈ t, TearDetected e.1 e.2)
    (hfit : 8 + tableSize t ≤ 4096) (k : UInt16) :
    let s' := padded ((encodeHeader ++ encodeTable t).take n)
    kvMap s' k = latest (tableLog t) k ∨ kvMap s' k = none := by
  intro s'
  by_cases hn : n < 8
  · exact .inr (kvMap_of_not_header (headerOf_torn_header hn _) k)
  have hs' : s' = padded (encodeHeader ++ (encodeTable t).take (n - 8)) := by
    simp only [s']
    rw [List.take_append, List.take_of_length_le (by simp; omega)]
    rfl
  obtain ⟨j, hj⟩ := logFrom_torn_table (a := encodeHeader) (n - 8) rfl (fun e he => (hst e he).1)
    hcrc hfit
  rw [← hs'] at hj
  have hle : ((encodeTable t).take (n - 8)).length ≤ tableSize t := by
    rw [List.length_take, length_encodeTable]
    exact Nat.min_le_right _ _
  have hh : headerOf s' = .valid := by
    apply headerOf_of_encodeHeader
    rw [hs', padded_bytes (by rw [List.length_append, length_encodeHeader]; omega),
      List.append_assoc]
    exact slice_append_self encodeHeader _
  have hsub : (t.take j).Sublist t := List.take_sublist j t
  have hmap : kvMap s' = latest (tableLog (t.take j)) := by
    rw [kvMap_of_header hh, log, headerSize]
    change latest (logEntries (logFrom s' encodeHeader.length).records) = _
    rw [hj, logEntries_layout fun e he => (hst e (hsub.subset he)).2]
  rw [hmap]
  cases hv : latest (tableLog (t.take j)) k with
  | none => exact .inr rfl
  | some v =>
    have hmem := (mem_table_iff (hnodup.sublist (hsub.map _)) k v).mpr hv
    exact .inl ((mem_table_iff hnodup k v).mp (hsub.subset hmem)).symm

theorem kvMap_write_of_ne {w : WriteCall} {k : UInt16} (hk : k ≠ w.key) (s : Sector) :
    kvMap (exec w.prog s).2 k = kvMap s k := by
  by_cases hw : w.Valid
  · rw [exec_write hw]
    split_ifs with hsame hfit
    · rfl
    · rw [kvMap_written hw.storable hfit, Function.update_of_ne hk]
    · rfl
  · rw [exec_write_invalid hw]

theorem kvMap_runCalls_of_ne {k : UInt16} (ws : List WriteCall) (hk : ∀ w ∈ ws, k ≠ w.key)
    (s : Sector) : kvMap (runCalls (ws.map .write) s).2 k = kvMap s k := by
  induction ws generalizing s with
  | nil => rfl
  | cons w ws ih =>
    have hrest := ih (fun w hw => hk w (by simp [hw])) (exec w.prog s).2
    exact hrest.trans (kvMap_write_of_ne (hk w (by simp)) s)

/-- Losing power during a write, at any point. As long as the sector was not erased, the
other keys keep their values and the written key has its old or its new one; later
writes keep what is there. After the erase every key has its new value or none. A tear
has to show in the records that are programmed: all of the image, or the one appended. -/
theorem flashKv_power_loss (s s' : Sector) (w : WriteCall) (done : List FlashCmd)
    (hcrc : ∀ k v, ((readMap s).apply (.write w)).lookup k = some v →
      k = w.key ∨ FlashCmd.flashEraseSector ∈ done → TearDetected k v)
    (hcut : Interrupted nor cutNor w.prog s done s') :
    (FlashCmd.flashEraseSector ∉ done → ∃ m : KvStore, Reads s' m ∧
      (∀ k, k ≠ w.key → m.lookup k = (readMap s).lookup k) ∧
      (m.lookup w.key = (readMap s).lookup w.key ∨
        m.lookup w.key = ((readMap s).apply (.write w)).lookup w.key) ∧
      ∀ later : List WriteCall, ∃ m' : KvStore, Reads (runCalls (later.map .write) s').2 m' ∧
        ∀ k, (∀ w' ∈ later, k ≠ w'.key) → m'.lookup k = m.lookup k) ∧
    (FlashCmd.flashEraseSector ∈ done → ∃ m : KvStore, Reads s' m ∧
      ∀ k, m.lookup k = ((readMap s).apply (.write w)).lookup k ∨ m.lookup k = none) := by
  have hread : ∀ t, Reads t (readMap t) := fun t => reads_of_lookup (readKey_eq t)
  have hlook : ∀ t, (readMap t).lookup = kvMap t := readKey_eq
  have hlater : ∀ later : List WriteCall, ∃ m' : KvStore,
      Reads (runCalls (later.map .write) s').2 m' ∧
        ∀ k, (∀ w' ∈ later, k ≠ w'.key) → m'.lookup k = (readMap s').lookup k := by
    intro later
    refine ⟨_, hread _, fun k hk => ?_⟩
    rw [hlook, hlook]
    exact kvMap_runCalls_of_ne later hk s'
  cases interrupted_write hcut with
  | before he =>
    exact ⟨fun _ => ⟨_, hread s, fun _ _ => rfl, .inl rfl, hlater⟩, fun h => absurd h he⟩
  | append he n hw hs hfit =>
    refine ⟨fun _ => ⟨_, hread _, ?_⟩, fun h => absurd h he⟩
    rw [lookup_apply hw] at hcrc ⊢
    have htear : TearDetected w.key w.value := by
      by_cases hv : w.value = []
      · rw [hv]
        exact tearDetected_nil w.key
      · refine hcrc _ _ ?_ (.inl rfl)
        rw [newMap, Function.update_self, liveValue, if_neg hv]
    have hmap := kvMap_torn_append n hw.storable htear hs hfit
    refine ⟨fun k hk => ?_, ?_, hlater⟩
    · rw [hlook, hlook]
      rcases hmap with h | h
      · rw [h]
      · rw [h, Function.update_of_ne hk]
    · rw [hlook, hlook]
      rcases hmap with h | h
      · exact .inl (congrFun h w.key)
      · exact .inr (congrFun h w.key)
  | rebuild he n hw hfit =>
    refine ⟨fun h => absurd he h, fun _ => ⟨_, hread _, fun k => ?_⟩⟩
    rw [lookup_apply hw] at hcrc ⊢
    rw [hlook, newMap, ← latest_newTable]
    exact kvMap_torn_image n (nodup_newTable s w.key w.value) (newTable_storable hw.storable)
      (fun e hmem => hcrc e.1 e.2 (mem_newTable.mp hmem) (.inr he)) hfit k

/-- A write to a sector without a store can be stopped at any byte of the fresh image. -/
theorem interrupted_image {s : Sector} {w : WriteCall} (hw : w.Valid) (hs : headerOf s ≠ .valid)
    (hv : w.value ≠ []) (n : ℕ) : ∃ done, FlashCmd.flashEraseSector ∈ done ∧
      Interrupted nor cutNor w.prog s done
        (padded ((encodeHeader ++ encodeTable (newTable s w.key w.value)).take n)) := by
  have hfit : 8 + tableSize (newTable s w.key w.value) ≤ 4096 := by
    rw [← liveSize_newTable hw.storable]
    exact fits_of_not_header hs hw.storable
  have hstate : stateOf s ≠ .valid := fun h => hs ((stateOf_valid_iff s).mp h).1
  have hcheck := exec_check hw s
  have hscan := exec_scan s
  obtain ⟨img, himg, hholds, hover⟩ := exec_collectImage s
  have hshort : ∀ e ∈ survivors s, e.2.length ≤ 256 := fun e he => (survivors_storable s e he).2
  obtain ⟨hok, -, hres⟩ := imagePut_spec hholds hshort w.key w.value
  rw [← newTable] at hok hres
  rw [kvMap_of_not_header hs, liveValue, if_neg hv, if_neg (by simp)] at hcheck
  unfold exec at hcheck hscan himg
  -- the command that is stopped: the write of the image to the erased sector
  have hwrite : Interrupted nor cutNor
      (writeVerified 0 ((imagePut img w.key w.value).2.data.take (imagePut img w.key w.value).2.n))
      Sector.erased []
      (padded ((encodeHeader ++ encodeTable (newTable s w.key w.value)).take n)) := by
    rw [(hres hfit).take]
    refine .inside _ _ _ _ ⟨n, ?_⟩
    rw [erased_eq_padded]
    have hnil : padded ([] ++ (encodeHeader ++ encodeTable (newTable s w.key w.value)).take n) =
        padded ((encodeHeader ++ encodeTable (newTable s w.key w.value)).take n) := rfl
    rw [← hnil]
    refine (program_padded ?_).symm
    have hle : ((encodeHeader ++ encodeTable (newTable s w.key w.value)).take n).length ≤
        (encodeHeader ++ encodeTable (newTable s w.key w.value)).length := by simp
    simp only [List.length_append, length_encodeHeader, length_encodeTable] at hle
    rw [List.length_nil]
    omega
  have hrebuild : Interrupted nor cutNor (rebuild (stateOf s) w.key w.value) s
      (calls nor (collectImage (stateOf s)) s ++ [.flashEraseSector])
      (padded ((encodeHeader ++ encodeTable (newTable s w.key w.value)).take n)) := by
    apply Interrupted.bind_right
    rw [himg, if_neg (by simp [hover])]
    dsimp only
    rw [hok, decide_eq_true hfit, if_neg (by simp)]
    exact .after _ _ s [] _ hwrite
  have happend : Interrupted nor cutNor (append w.key w.value) s
      (calls nor scan s ++ (calls nor (collectImage (stateOf s)) s ++ [.flashEraseSector]))
      (padded ((encodeHeader ++ encodeTable (newTable s w.key w.value)).take n)) := by
    apply Interrupted.bind_right
    rw [hscan]
    dsimp only
    rw [if_neg (fun h => hstate h.1)]
    exact hrebuild
  have hprog : Interrupted nor cutNor (w.check >>= WriteCall.finish w.key w.value) s
      (calls nor w.check s ++ (calls nor scan s ++
        (calls nor (collectImage (stateOf s)) s ++ [.flashEraseSector])))
      (padded ((encodeHeader ++ encodeTable (newTable s w.key w.value)).take n)) := by
    apply Interrupted.bind_right
    rw [hcheck]
    exact happend
  rw [w.prog_eq]
  exact ⟨_, by simp, hprog⟩

/-- A write to a valid store with room can be stopped at any byte of its record. -/
theorem interrupted_record {s : Sector} {w : WriteCall} (hw : w.Valid) (hs : stateOf s = .valid)
    (hne : kvMap s w.key ≠ liveValue w.value)
    (hfit : (log s).stop + recordSize w.value.length ≤ 4096) (n : ℕ) :
    ∃ done, FlashCmd.flashEraseSector ∉ done ∧ Interrupted nor cutNor w.prog s done
      (padded (s.bytes.take (log s).stop ++ (encodeRecord w.key w.value).take n)) := by
  obtain ⟨hh, -, ht⟩ := (stateOf_valid_iff s).mp hs
  have hlen : (s.bytes.take (log s).stop).length = (log s).stop := by
    rw [List.length_take, s.size]
    exact Nat.min_eq_left (log_stop_le s)
  have hcheck := exec_check hw s
  have hscan := exec_scan s
  rw [if_neg hne] at hcheck
  unfold exec at hcheck hscan
  -- the command that is stopped: the write of the record behind the log
  have hwrite : Interrupted nor cutNor
      (writeVerified (log s).stop (encodeRecord w.key w.value)) s []
      (padded (s.bytes.take (log s).stop ++ (encodeRecord w.key w.value).take n)) := by
    refine .inside _ _ _ _ ⟨n, ?_⟩
    have hle : ((encodeRecord w.key w.value).take n).length ≤ recordSize w.value.length := by
      rw [List.length_take, length_encodeRecord]
      exact Nat.min_le_right _ _
    have hprogram : program (padded (s.bytes.take (log s).stop)).bytes
        (s.bytes.take (log s).stop).length ((encodeRecord w.key w.value).take n) =
          (padded (s.bytes.take (log s).stop ++ (encodeRecord w.key w.value).take n)).bytes :=
      program_padded (by omega)
    rw [padded_of_tailBlank (log_stop_le s) ht, hlen] at hprogram
    exact hprogram.symm
  have happend : Interrupted nor cutNor (append w.key w.value) s (calls nor scan s ++ [])
      (padded (s.bytes.take (log s).stop ++ (encodeRecord w.key w.value).take n)) := by
    apply Interrupted.bind_right
    rw [hscan, if_neg (by simp [hh])]
    dsimp only
    rw [if_pos ⟨hs, hfit⟩]
    exact hwrite
  have hprog : Interrupted nor cutNor (w.check >>= WriteCall.finish w.key w.value) s
      (calls nor w.check s ++ (calls nor scan s ++ []))
      (padded (s.bytes.take (log s).stop ++ (encodeRecord w.key w.value).take n)) := by
    apply Interrupted.bind_right
    rw [hcheck]
    exact happend
  rw [w.prog_eq]
  refine ⟨_, ?_, hprog⟩
  rw [List.append_nil, List.mem_append]
  exact not_or.mpr ⟨calls_not_erase w.quiet_check s, calls_not_erase quiet_scan s⟩

/-- The first write to a blank sector, stopped after two bytes of the record, and an append to a
store, stopped in the value. -/
theorem flashKv_power_loss_writes :
    (∃ done s', FlashCmd.flashEraseSector ∈ done ∧
      Interrupted nor cutNor (flashKvSet 1 (.bytes [0x41])) Sector.erased done s' ∧
      ∃ m : KvStore, Reads s' m ∧ ∀ k,
        m.lookup k = ((readMap Sector.erased).apply (.write (.set 1 (.bytes [0x41])))).lookup k ∨
          m.lookup k = none) ∧
    ∃ done s', FlashCmd.flashEraseSector ∉ done ∧
      Interrupted nor cutNor (flashKvSet 2 (.bytes [0x42, 0x43])) oneSetting done s' ∧
      ∃ m : KvStore, Reads s' m ∧ m.lookup 1 = some [0x41] ∧
        (m.lookup 2 = none ∨ m.lookup 2 = some [0x42, 0x43]) := by
  constructor
  · have hw : (WriteCall.set 1 (.bytes [0x41])).Valid := by decide
    obtain ⟨done, hmem, hcut⟩ := interrupted_image hw headerOf_erased (by decide) 10
    refine ⟨done, _, hmem, hcut, (flashKv_power_loss _ _ _ done ?_ hcut).2 hmem⟩
    intro k v hv _
    rw [lookup_apply hw, newMap] at hv
    by_cases hk : k = (WriteCall.set 1 (.bytes [0x41])).key
    · rw [hk, Function.update_self] at hv
      cases hv
      rw [hk]
      decide +kernel
    · rw [Function.update_of_ne hk, kvMap_erased] at hv
      cases hv
  · have hw : (WriteCall.set 2 (.bytes [0x42, 0x43])).Valid := by decide
    obtain ⟨hvalid, hstop⟩ := oneSetting_valid
    have hne : kvMap oneSetting (WriteCall.set 2 (.bytes [0x42, 0x43])).key ≠
        liveValue [0x42, 0x43] := by
      rw [kvMap_oneSetting]
      decide
    obtain ⟨done, hmem, hcut⟩ := interrupted_record hw hvalid hne (by rw [hstop]; decide) 5
    have hold : ∀ k, (readMap oneSetting).lookup k = if k = 1 then some [0x41] else none :=
      fun k => (congrFun (readKey_eq oneSetting) k).trans (kvMap_oneSetting k)
    have hnew : ((readMap oneSetting).apply (.write (.set 2 (.bytes [0x42, 0x43])))).lookup 2 =
        some [0x42, 0x43] := by
      rw [lookup_apply hw, newMap]
      exact Function.update_self ..
    have hcrc : ∀ k v, ((readMap oneSetting).apply
        (.write (.set 2 (.bytes [0x42, 0x43])))).lookup k = some v →
        k = 2 ∨ FlashCmd.flashEraseSector ∈ done → TearDetected k v := by
      intro k v hv hk
      obtain rfl := hk.resolve_right hmem
      obtain rfl := Option.some.inj (hnew.symm.trans hv)
      decide +kernel
    obtain ⟨m, hreads, hother, hkey, -⟩ := (flashKv_power_loss _ _ _ done hcrc hcut).1 hmem
    refine ⟨done, _, hmem, hcut, m, hreads, (hother 1 (by decide)).trans (hold 1), ?_⟩
    exact hkey.imp (fun h => h.trans (hold 2)) fun h => h.trans hnew

end BekenCam.FlashKv
