import BekenCam.FlashKvRead

/-!
# The compaction image

`rebuild` collects the surviving records in a RAM copy of the sector. At every point
of the walk the used part of that copy is the header and an encoded table, and the
table is the compaction of the records seen so far. The copy keeps its 4096 bytes, so
nothing is ever written past it.
-/
namespace BekenCam.FlashKv

open Prog

abbrev Table := List (UInt16 × List UInt8)

/-- The used part of the image is the header followed by the table. -/
def Image.Holds (img : Image) (t : Table) : Prop :=
  ∃ junk, img.data = encodeHeader ++ (encodeTable t ++ junk) ∧ img.n = 8 + tableSize t ∧
    img.data.length = 4096

theorem Image.Holds.size_le {img : Image} {t : Table} (h : img.Holds t) :
    8 + tableSize t ≤ 4096 := by
  obtain ⟨junk, hdata, -, hlen⟩ := h
  rw [hdata] at hlen
  simp only [List.length_append, length_encodeHeader, length_encodeTable] at hlen
  omega

/-- The image is intact: its buffer has kept its length, so no write ran past it, the
used part lies inside, and no record was dropped for lack of room. -/
def Image.InBounds (img : Image) : Prop :=
  img.overflow = false ∧ img.data.length = 4096 ∧ img.n ≤ 4096

theorem Image.Holds.inBounds {img : Image} {t : Table} (h : img.Holds t)
    (ho : img.overflow = false) : img.InBounds := by
  have hle := h.size_le
  obtain ⟨junk, -, hn, hlen⟩ := h
  exact ⟨ho, hlen, by omega⟩

theorem Image.Holds.take {img : Image} {t : Table} (h : img.Holds t) :
    img.data.take img.n = encodeHeader ++ encodeTable t := by
  obtain ⟨junk, hdata, hn, -⟩ := h
  rw [hdata, hn, ← List.append_assoc]
  exact List.take_left' (by simp)

/-! ## Dropping a key -/

/-- The key and the length of the record an image offset points at. -/
theorem readU16le_encodeRecord (key : UInt16) (value rest : List UInt8)
    (hlen : value.length ≤ 256) :
    readU16le (encodeRecord key value ++ rest) = key ∧
      (readU16le ((encodeRecord key value ++ rest).drop 2)).toNat = value.length := by
  rw [encodeRecord_eq, List.append_assoc, readU16le_recordHead, readU16le_recordHead_drop]
  refine ⟨rfl, ?_⟩
  simp only [UInt16.toNat_ofNat']
  omega

/-- The loop drops exactly the records of `key` from the part of the image ahead of
it; `a` is the part it has left behind. -/
theorem imageDrop_eq (key : UInt16) (t : Table) (hst : ∀ e ∈ t, e.2.length ≤ 256)
    (a junk : List UInt8) :
    ∃ junk', imageDrop key (a ++ (encodeTable t ++ junk)) (a.length + tableSize t) a.length =
        (a ++ (encodeTable (t.filter (fun e => e.1 ≠ key)) ++ junk'),
          a.length + tableSize (t.filter (fun e => e.1 ≠ key))) ∧
      junk'.length + tableSize (t.filter (fun e => e.1 ≠ key)) = junk.length + tableSize t := by
  induction t generalizing a junk with
  | nil =>
    rw [imageDrop, if_neg (by simp)]
    exact ⟨junk, rfl, rfl⟩
  | cons e t ih =>
    have hpos : 0 < recordSize e.2.length := by rw [recordSize_eq]; omega
    have hdrop : (a ++ (encodeTable (e :: t) ++ junk)).drop a.length =
        encodeRecord e.1 e.2 ++ (encodeTable t ++ junk) := by
      rw [List.drop_left, encodeTable_cons, List.append_assoc]
    obtain ⟨hkey, hlen⟩ := readU16le_encodeRecord e.1 e.2 (encodeTable t ++ junk)
      (hst e (by simp))
    rw [imageDrop, if_pos (by rw [tableSize_cons]; omega), ← List.drop_drop, hdrop, hkey, hlen]
    by_cases hek : e.1 = key
    · -- the records behind it move over the dropped one
      have hn : a.length + tableSize (e :: t) - a.length - recordSize e.2.length =
          (encodeTable t).length := by
        rw [tableSize_cons, length_encodeTable]; omega
      have hmove : slice (a ++ (encodeTable (e :: t) ++ junk)) (a.length + recordSize e.2.length)
          (encodeTable t).length = encodeTable t := by
        have hs := slice_middle (a ++ encodeRecord e.1 e.2) (encodeTable t) junk
        simpa using hs
      have hwrite : writeAt (a ++ (encodeTable (e :: t) ++ junk)) a.length (encodeTable t) =
          a ++ (encodeTable t ++ (encodeTable (e :: t) ++ junk).drop (encodeTable t).length) := by
        rw [writeAt, List.take_left, ← List.drop_drop, List.drop_left, List.append_assoc]
      have hn' : a.length + tableSize (e :: t) - recordSize e.2.length = a.length + tableSize t := by
        rw [tableSize_cons]; omega
      rw [if_pos hek, hn, hmove, hwrite, hn', List.filter_cons_of_neg (by simp [hek])]
      obtain ⟨junk', heq, hl⟩ := ih (fun e he => hst e (by simp [he])) a
        ((encodeTable (e :: t) ++ junk).drop (encodeTable t).length)
      refine ⟨junk', heq, ?_⟩
      simp only [List.length_drop, List.length_append, length_encodeTable, tableSize_cons] at hl ⊢
      omega
    · rw [if_neg hek, List.filter_cons_of_pos (by simp [hek])]
      obtain ⟨junk', heq, hl⟩ := ih (fun e he => hst e (by simp [he]))
        (a ++ encodeRecord e.1 e.2) junk
      refine ⟨junk', ?_, ?_⟩
      · simpa [Nat.add_assoc] using heq
      · simp only [tableSize_cons]
        omega

/-! ## Putting a value -/

/-- Bytes of a record that holds the value, or removes the key if there is none. -/
def weight (v : Option (List UInt8)) : ℕ := recordSize (v.getD []).length

@[simp] theorem liveValue_getD (v : List UInt8) : (liveValue v).getD [] = v := by
  unfold liveValue
  split_ifs with h <;> simp [h]

theorem tableSize_eq_logWeight (t : Table) : tableSize t = logWeight weight (tableLog t) := by
  simp [tableSize, logWeight, tableLog, weight, Function.comp_def]

theorem recordsSize_eq_logWeight (rs : List Record) :
    recordsSize rs = logWeight weight (logEntries rs) := by
  simp [recordsSize, logWeight, logEntries, weight, Function.comp_def]

theorem put_liveValue_nil (t : Table) (key : UInt16) :
    put t key (liveValue []) = t.filter (fun e => e.1 ≠ key) := by
  simp [put, liveValue]

theorem put_liveValue {v : List UInt8} (hv : v ≠ []) (t : Table) (key : UInt16) :
    put t key (liveValue v) = t.filter (fun e => e.1 ≠ key) ++ [(key, v)] := by
  simp [put, liveValue, hv]

/-- `image_put` puts into the table if the result fits, and says so; either way the
image stays intact. -/
theorem imagePut_spec {img : Image} {t : Table} (himg : img.Holds t)
    (hst : ∀ e ∈ t, e.2.length ≤ 256) (key : UInt16) (value : List UInt8) :
    (imagePut img key value).1 = decide (8 + tableSize (put t key (liveValue value)) ≤ 4096) ∧
      (img.overflow = false → (imagePut img key value).2.InBounds) ∧
      (8 + tableSize (put t key (liveValue value)) ≤ 4096 →
        (imagePut img key value).2.Holds (put t key (liveValue value))) := by
  have hle := himg.size_le
  obtain ⟨junk, hdata, hn, hlen⟩ := himg
  obtain ⟨junk', hdrop, hjunk⟩ := imageDrop_eq key t hst encodeHeader junk
  set f := t.filter (fun e => e.1 ≠ key) with hf
  rw [← hdata, length_encodeHeader, ← hn] at hdrop
  rw [hdata] at hlen
  simp only [List.length_append, length_encodeHeader, length_encodeTable] at hlen
  by_cases hv : value = []
  · subst hv
    rw [put_liveValue_nil, ← hf, imagePut, hdrop]
    have hfit : 8 + tableSize f ≤ 4096 := by omega
    have hl : (encodeHeader ++ (encodeTable f ++ junk')).length = 4096 := by simp; omega
    simp only [List.length_nil, if_true, hfit, decide_true, true_and]
    exact ⟨fun ho => ⟨ho, hl, hfit⟩, fun _ => ⟨junk', rfl, rfl, hl⟩⟩
  · have hlv : value.length ≠ 0 := by simpa using hv
    have hsize : tableSize (f ++ [(key, value)]) = tableSize f + recordSize value.length := by simp
    rw [put_liveValue hv, ← hf, hsize, imagePut, hdrop]
    simp only [hlv, if_false]
    by_cases hfit : 8 + (tableSize f + recordSize value.length) ≤ 4096
    · rw [if_neg (by simp only [kvSectorSize]; omega)]
      have hwrite : writeAt (encodeHeader ++ (encodeTable f ++ junk')) (8 + tableSize f)
          (encodeRecord key value) = encodeHeader ++ (encodeTable (f ++ [(key, value)]) ++
            junk'.drop (recordSize value.length)) := by
        have hw := writeAt_append_left (encodeHeader ++ encodeTable f)
          (junk'.take (recordSize value.length)) (encodeRecord key value)
          (by rw [length_encodeRecord, List.length_take]; omega)
          (junk'.drop (recordSize value.length))
        rw [List.take_append_drop] at hw
        simpa using hw
      have hl : (encodeHeader ++ (encodeTable (f ++ [(key, value)]) ++
          junk'.drop (recordSize value.length))).length = 4096 := by
        simp only [List.length_append, length_encodeHeader, length_encodeTable, hsize,
          List.length_drop]
        omega
      simp only [hfit, decide_true, true_and, hwrite]
      have hn' : 8 + tableSize f + (encodeRecord key value).length =
          8 + tableSize (f ++ [(key, value)]) := by
        rw [length_encodeRecord, hsize]
        omega
      exact ⟨fun ho => ⟨ho, hl, by rw [hn', hsize]; exact hfit⟩, fun _ => ⟨_, rfl, hn', hl⟩⟩
    · rw [if_pos (by simp only [kvSectorSize]; omega)]
      simp only [hfit, decide_false, true_and]
      exact ⟨fun ho => ⟨ho, by simp; omega, by dsimp only; omega⟩, fun h => h.elim⟩

/-! ## Collecting the log -/

theorem initialImage_holds : initialImage.Holds [] := by
  have hw := writeAt_append_left [] (List.replicate 8 (0 : UInt8)) encodeHeader rfl
    (List.replicate 4088 0)
  rw [List.nil_append, ← List.replicate_add, List.nil_append] at hw
  have hdata : initialImage.data = encodeHeader ++ List.replicate 4088 0 := hw
  refine ⟨List.replicate 4088 0, hdata, rfl, ?_⟩
  rw [hdata, List.length_append, List.length_replicate]
  rfl

theorem mem_compact_logEntries {rs : List Record} {e : UInt16 × List UInt8}
    (h : e ∈ compact (logEntries rs)) : ∃ r ∈ rs, r.key = e.1 ∧ r.value = e.2 := by
  have hm := (mem_table_iff (nodup_keys_compact _) e.1 e.2).mp h
  rw [latest_tableLog_compact] at hm
  exact (latest_logEntries_mem hm).2

/-- A record that a chain can hold. -/
def Record.Storable (r : Record) : Prop := FlashKv.Storable (r.key, r.value)

theorem chain_storable {s : Sector} {rs : List Record} {off stop : ℕ}
    (h : Chain s off rs stop) : ∀ r ∈ rs, r.Storable := by
  intro r hr
  have he := (entryAt_valid_iff _ _ _ _).mp (chain_mem h hr)
  exact ⟨he.1, he.2.1⟩

theorem compact_storable {rs : List Record} (hst : ∀ r ∈ rs, r.Storable) :
    ∀ e ∈ compact (logEntries rs), Storable e := by
  intro e he
  obtain ⟨r, hr, hk, hv⟩ := mem_compact_logEntries he
  have h := hst r hr
  simpa [Record.Storable, hk, hv] using h

theorem tableSize_compact_le (rs : List Record) :
    tableSize (compact (logEntries rs)) ≤ recordsSize rs := by
  rw [tableSize_eq_logWeight, recordsSize_eq_logWeight]
  exact logWeight_compact_le weight _

theorem tableSize_put_le (t : Table) (key : UInt16) (value : List UInt8) :
    tableSize (put t key (liveValue value)) ≤ tableSize t + recordSize value.length := by
  have h := logWeight_put_le weight t key (liveValue value)
  rw [← tableSize_eq_logWeight, ← tableSize_eq_logWeight] at h
  simpa [weight] using h

/-- Records that fit in a sector are collected without an overflow: the image before
each record is no longer than the part of the log in front of that record. -/
theorem foldl_collectVisit (rs : List Record) (hst : ∀ r ∈ rs, r.Storable)
    (hfit : 8 + recordsSize rs ≤ 4096) :
    (rs.foldl collectVisit initialImage).Holds (compact (logEntries rs)) ∧
      (rs.foldl collectVisit initialImage).overflow = false := by
  induction rs using List.reverseRecOn with
  | nil => exact ⟨initialImage_holds, rfl⟩
  | append_singleton rs r ih =>
    have hsum : recordsSize (rs ++ [r]) = recordsSize rs + recordSize r.value.length := by
      simp [recordsSize]
    obtain ⟨hholds, hover⟩ := ih (fun q hq => hst q (by simp [hq])) (by omega)
    have hc : compact (logEntries (rs ++ [r])) =
        put (compact (logEntries rs)) r.key (liveValue r.value) := by
      simp [logEntries]
    have hput := tableSize_put_le (compact (logEntries rs)) r.key r.value
    have hcomp := tableSize_compact_le rs
    have hle : 8 + tableSize (put (compact (logEntries rs)) r.key (liveValue r.value)) ≤ 4096 := by
      omega
    obtain ⟨hok, hov, hres⟩ := imagePut_spec hholds
      (fun e he => (compact_storable (fun q hq => hst q (by simp [hq])) e he).2) r.key r.value
    rw [List.foldl_append, List.foldl_cons, List.foldl_nil, hc, collectVisit]
    simp only [hok, hle, decide_true, Bool.not_true, Bool.false_eq_true, if_false]
    exact ⟨hres hle, (hov hover).1⟩

end BekenCam.FlashKv
