import BekenCam.FlashKvImage

/-!
# Writing the store

The two ways a value reaches the sector: behind the log of a valid store, or in a
freshly written image. Both leave a valid store whose map is the old one updated at
the key. Which of them a call takes is not visible in its answer: it fails exactly
when the live records of the new map do not fit.
-/
namespace BekenCam.FlashKv

open Prog

/-! ## Verified writes -/

theorem exec_readBack {off : ℕ} {src : List UInt8} {s : Sector}
    (h : slice s.bytes off src.length = src) (done : ℕ) :
    exec (readBack off src done) s = (.ok (), s) := by
  induction done using readBack.induct src with
  | case1 done hdone ih =>
    set n := min (src.length - done) flashReadBlockSize with hn
    have hblock : slice s.bytes (off + done) n = slice src done n := by
      conv_rhs => rw [← h]
      simp only [slice, List.drop_take, List.take_take, List.drop_drop]
      congr 1
      omega
    rw [readBack, if_pos hdone]
    simp only [exec_flashRead_bind]
    rw [← hn, if_neg (not_not.mpr hblock), ih]
  | case2 done hdone =>
    rw [readBack, if_neg hdone]
    rfl

/-- A sector with the given front and erased bytes behind it. -/
def padded (front : List UInt8) : Sector :=
  ⟨(front ++ blank 4096).take 4096, by simp⟩

theorem padded_bytes {front : List UInt8} (h : front.length ≤ 4096) :
    (padded front).bytes = front ++ blank (4096 - front.length) := by
  have hb : blank 4096 = blank (4096 - front.length) ++ blank front.length := by
    rw [← blank_add]
    congr 1
    omega
  have hlen : (front ++ blank (4096 - front.length)).length = 4096 := by simp; omega
  calc (front ++ blank 4096).take 4096
      = ((front ++ blank (4096 - front.length)) ++ blank front.length).take 4096 := by
        rw [hb, List.append_assoc]
    _ = front ++ blank (4096 - front.length) := List.take_left' hlen

theorem padded_tailBlank {front : List UInt8} (h : front.length ≤ 4096) :
    TailBlank (padded front) front.length := by
  rw [TailBlank, padded_bytes h, List.drop_left]

theorem padded_of_tailBlank {s : Sector} {off : ℕ} (hoff : off ≤ 4096) (h : TailBlank s off) :
    padded (s.bytes.take off) = s := by
  have hlen : (s.bytes.take off).length = off := by
    rw [List.length_take, s.size, Nat.min_eq_left hoff]
  apply Sector.ext
  rw [padded_bytes (by omega), hlen]
  conv_rhs => rw [← List.take_append_drop off s.bytes, h]

/-- Programming behind the front of a padded sector makes the front longer. -/
theorem program_padded {front src : List UInt8} (h : front.length + src.length ≤ 4096) :
    program (padded front).bytes front.length src = (padded (front ++ src)).bytes := by
  have hb : blank (4096 - front.length) =
      blank src.length ++ blank (4096 - (front ++ src).length) := by
    rw [← blank_add, List.length_append]
    congr 1
    omega
  rw [padded_bytes (by omega), hb, program_blank, padded_bytes (by simpa using h),
    List.append_assoc]

theorem erased_eq_padded : Sector.erased = padded [] := by
  apply Sector.ext
  rw [padded_bytes (by simp)]
  rfl

/-- A verified write into erased bytes succeeds. -/
theorem exec_writeVerified (front src : List UInt8) (h : front.length + src.length ≤ 4096) :
    exec (writeVerified front.length src) (padded front) = (.ok (), padded (front ++ src)) := by
  have hp : (⟨program (padded front).bytes front.length src, by simp [(padded front).size]⟩ :
      Sector) = padded (front ++ src) := Sector.ext (program_padded h)
  rw [writeVerified, exec_flashWrite_bind, hp, exec_readBack]
  rw [padded_bytes (by simpa using h), List.append_assoc]
  exact slice_middle front src _

/-! ## Compaction -/

/-- The sector `rebuild` writes for a table. -/
def imageSector (t : Table) : Sector := padded (encodeHeader ++ encodeTable t)

theorem imageSector_bytes {t : Table} (h : 8 + tableSize t ≤ 4096) :
    (imageSector t).bytes = encodeHeader ++ (encodeTable t ++ blank (4096 - (8 + tableSize t))) := by
  rw [imageSector, padded_bytes (by simpa using h), List.append_assoc]
  simp

theorem headerOf_imageSector {t : Table} (h : 8 + tableSize t ≤ 4096) :
    headerOf (imageSector t) = .valid := by
  apply headerOf_of_encodeHeader
  rw [imageSector_bytes h]
  exact slice_append_self encodeHeader _

theorem chain_imageSector {t : Table} (hst : ∀ e ∈ t, Storable e) (h : 8 + tableSize t ≤ 4096) :
    Chain (imageSector t) 8 (layout 8 t) (8 + tableSize t) :=
  chain_encodeTable hst (imageSector_bytes h)

/-- An erased offset ends the log. -/
theorem logFrom_of_tailBlank {s : Sector} {off : ℕ} (hoff : off + 4 ≤ 4096 ∨ off = 4096)
    (h : TailBlank s off) : logFrom s off = ⟨[], true, off⟩ := by
  apply logFrom_finished
  apply entryAt_finished_of_blank
  rcases hoff with hoff | rfl
  · refine .inr ⟨[0xFF, 0xFF], ?_⟩
    rw [slice, h, blank, List.take_replicate, Nat.min_eq_left (by omega)]
    rfl
  · exact .inl rfl

theorem recordSize_mod (len : ℕ) : recordSize len % 4 = 0 := by
  rw [recordSize_eq, align4]
  omega

theorem recordsSize_mod (rs : List Record) : recordsSize rs % 4 = 0 := by
  induction rs with
  | nil => rfl
  | cons r rs ih =>
    have h := recordSize_mod r.value.length
    simp only [recordsSize, List.map_cons, List.sum_cons] at ih ⊢
    omega

/-- A header, a chain behind it and erased bytes behind that make a valid store whose
log is the chain. -/
theorem valid_of_chain {s : Sector} {rs : List Record} {stop : ℕ} (hh : headerOf s = .valid)
    (hc : Chain s 8 rs stop) (ht : TailBlank s stop) :
    stateOf s = .valid ∧ log s = ⟨rs, true, stop⟩ := by
  have hle := chain_le (by omega) hc
  have hmod := recordsSize_mod rs
  have hstop := chain_stop hc
  have hlog : log s = ⟨rs, true, stop⟩ := by
    rw [log, logFrom_of_chain hc, logFrom_of_tailBlank (by omega) ht]
    simp
  refine ⟨(stateOf_valid_iff s).mpr ⟨hh, ?_, ?_⟩, hlog⟩
  · rw [hlog]
  · rw [hlog]
    exact ht

theorem imageSector_valid {t : Table} (hst : ∀ e ∈ t, Storable e) (h : 8 + tableSize t ≤ 4096) :
    stateOf (imageSector t) = .valid ∧ log (imageSector t) = ⟨layout 8 t, true, 8 + tableSize t⟩ := by
  apply valid_of_chain (headerOf_imageSector h) (chain_imageSector hst h)
  have hlen : (encodeHeader ++ encodeTable t).length = 8 + tableSize t := by simp
  have ht := padded_tailBlank (hlen.trans_le h)
  rwa [hlen, ← imageSector] at ht

theorem logEntries_layout {t : Table} (hne : ∀ e ∈ t, e.2 ≠ []) (off : ℕ) :
    logEntries (layout off t) = tableLog t := by
  induction t generalizing off with
  | nil => rfl
  | cons e t ih =>
    have hrec := ih (fun e he => hne e (by simp [he])) (off + recordSize e.2.length)
    simp only [logEntries, tableLog, layout, List.map_cons] at hrec ⊢
    rw [hrec, liveValue, if_neg (hne e (by simp))]

/-- The surviving records of a sector, as `rebuild` collects them. -/
def survivors (s : Sector) : Table :=
  if headerOf s = .valid then compact (logEntries (log s).records) else []

theorem latest_survivors (s : Sector) : latest (tableLog (survivors s)) = kvMap s := by
  rw [survivors, kvMap]
  split_ifs
  · exact latest_tableLog_compact _
  · rfl

theorem nodup_survivors (s : Sector) : ((survivors s).map Prod.fst).Nodup := by
  rw [survivors]
  split_ifs
  · exact nodup_keys_compact _
  · simp

theorem mem_survivors {s : Sector} {e : UInt16 × List UInt8} :
    e ∈ survivors s ↔ kvMap s e.1 = some e.2 := by
  rw [← latest_survivors]
  exact mem_table_iff (nodup_survivors s) e.1 e.2

/-- The table after a put: the survivors with the key's value replaced. -/
def newTable (s : Sector) (key : UInt16) (value : List UInt8) : Table :=
  put (survivors s) key (liveValue value)

theorem latest_newTable (s : Sector) (key : UInt16) (value : List UInt8) :
    latest (tableLog (newTable s key value)) =
      Function.update (kvMap s) key (liveValue value) := by
  rw [newTable, latest_tableLog_put, latest_survivors]

theorem nodup_newTable (s : Sector) (key : UInt16) (value : List UInt8) :
    ((newTable s key value).map Prod.fst).Nodup :=
  nodup_keys_put (nodup_survivors s) key _

theorem mem_newTable {s : Sector} {key : UInt16} {value : List UInt8}
    {e : UInt16 × List UInt8} : e ∈ newTable s key value ↔
      Function.update (kvMap s) key (liveValue value) e.1 = some e.2 := by
  rw [← latest_newTable]
  exact mem_table_iff (nodup_newTable s key value) e.1 e.2

/-- Everything a put leaves live can be stored, and none of it is empty. -/
theorem newTable_storable {s : Sector} {key : UInt16} {value : List UInt8}
    (hst : Storable (key, value)) : ∀ e ∈ newTable s key value, Storable e ∧ e.2 ≠ [] := by
  intro e he
  rw [mem_newTable] at he
  by_cases hk : e.1 = key
  · rw [hk, Function.update_self, liveValue] at he
    split_ifs at he with hv
    cases he
    exact ⟨by simpa [Storable, hk] using hst, hv⟩
  · rw [Function.update_of_ne hk] at he
    obtain ⟨h1, h2, h3⟩ := kvMap_some he
    exact ⟨⟨h1, h3⟩, h2⟩

theorem headerOf_valid_iff (s : Sector) :
    headerOf s = .valid ↔ stateOf s = .valid ∨ stateOf s = .torn := by
  constructor
  · intro h
    rw [stateOf, if_neg (by simp [h])]
    split_ifs <;> simp
  · rintro (h | h)
    · exact ((stateOf_valid_iff s).mp h).1
    · exact headerOf_of_torn h

/-- The image collected from a sector holds the survivors, without an overflow. -/
theorem exec_collectImage (s : Sector) : ∃ img : Image,
    exec (collectImage (stateOf s)) s = (img, s) ∧ img.Holds (survivors s) ∧
      img.overflow = false := by
  rw [collectImage, survivors]
  by_cases hh : headerOf s = .valid
  · have hstop := log_stop_eq s
    have hle := log_stop_le s
    have hf := foldl_collectVisit (log s).records (chain_storable (chain_log s)) (by omega)
    rw [if_pos ((headerOf_valid_iff s).mp hh), if_pos hh, exec_bind_of (exec_walk _ _ s)]
    exact ⟨_, rfl, hf⟩
  · rw [if_neg (fun h => hh ((headerOf_valid_iff s).mpr h)), if_neg hh]
    exact ⟨initialImage, rfl, initialImage_holds, rfl⟩

theorem exec_rebuild (s : Sector) (key : UInt16) (value : List UInt8) :
    exec (rebuild (stateOf s) key value) s =
      if 8 + tableSize (newTable s key value) ≤ 4096 then
        (.ok (), imageSector (newTable s key value))
      else (.error .enospc, s) := by
  obtain ⟨img, hrun, hholds, hover⟩ := exec_collectImage s
  have hshort : ∀ e ∈ survivors s, e.2.length ≤ 256 := by
    intro e he
    exact (kvMap_some (mem_survivors.mp he)).2.2
  obtain ⟨hok, -, hres⟩ := imagePut_spec hholds hshort key value
  rw [rebuild, exec_bind_of hrun, if_neg (by simp [hover])]
  rw [← newTable] at hok hres
  by_cases hfit : 8 + tableSize (newTable s key value) ≤ 4096
  · have hw := exec_writeVerified [] (encodeHeader ++ encodeTable (newTable s key value))
      (by simpa using hfit)
    simp only [hok, hfit, decide_true, Bool.not_true, Bool.false_eq_true, if_false, if_true,
      exec_flashEraseSector_bind, (hres hfit).take, erased_eq_padded]
    exact hw
  · simp only [hok, hfit, decide_false, Bool.not_false, if_true, if_false]
    rfl

/-! ## Appending -/

/-- The keys a value can be stored under. -/
def allKeys : Finset UInt16 := (Finset.range 0xFFFF).image UInt16.ofNat

theorem mem_allKeys {key : UInt16} (h : key ≠ flashKvKeyNone) : key ∈ allKeys := by
  refine Finset.mem_image.mpr ⟨key.toNat, Finset.mem_range.mpr ?_, by simp⟩
  have hlt := key.toNat_lt
  have hne : key.toNat ≠ 0xFFFF := fun hc => h (UInt16.toNat_inj.mp hc)
  omega

/-- The live bytes of a map: the header, and one record for each key with a value. -/
def liveSize (m : UInt16 → Option (List UInt8)) : ℕ := headerSize + mapWeight weight allKeys m

theorem liveSize_latest {t : Table} (hn : (t.map Prod.fst).Nodup) (hst : ∀ e ∈ t, Storable e) :
    liveSize (latest (tableLog t)) = 8 + tableSize t := by
  rw [liveSize, tableSize_eq_logWeight,
    logWeight_table weight allKeys hn (fun e he => mem_allKeys (hst e he).1)]

/-- The compacted store takes exactly the live bytes of its map. -/
theorem liveSize_newTable {s : Sector} {key : UInt16} {value : List UInt8}
    (hst : Storable (key, value)) :
    liveSize (Function.update (kvMap s) key (liveValue value)) =
      8 + tableSize (newTable s key value) := by
  rw [← latest_newTable]
  exact liveSize_latest (nodup_newTable s key value) (fun e he => (newTable_storable hst e he).1)

theorem survivors_storable (s : Sector) : ∀ e ∈ survivors s, Storable e := by
  intro e he
  obtain ⟨h1, -, h3⟩ := kvMap_some (mem_survivors.mp he)
  exact ⟨h1, h3⟩

/-- The live records of a sector are part of its log. -/
theorem tableSize_survivors_le (s : Sector) : tableSize (survivors s) ≤ recordsSize (log s).records := by
  rw [survivors]
  split_ifs
  · exact tableSize_compact_le _
  · simp

theorem liveSize_kvMap (s : Sector) : liveSize (kvMap s) = 8 + tableSize (survivors s) := by
  rw [← latest_survivors]
  exact liveSize_latest (nodup_survivors s) (survivors_storable s)

theorem liveSize_kvMap_le (s : Sector) : liveSize (kvMap s) ≤ 4096 := by
  have h1 := tableSize_survivors_le s
  have h2 := log_stop_eq s
  have h3 := log_stop_le s
  rw [liveSize_kvMap]
  omega

/-- A put adds at most its own record. -/
theorem liveSize_update_le {s : Sector} {key : UInt16} {value : List UInt8}
    (hst : Storable (key, value)) :
    liveSize (Function.update (kvMap s) key (liveValue value)) ≤
      liveSize (kvMap s) + recordSize value.length := by
  have hput := tableSize_put_le (survivors s) key value
  rw [← newTable] at hput
  rw [liveSize_newTable hst, liveSize_kvMap]
  omega

/-- The sector after a record has been written behind the log of a valid store. -/
def appended (s : Sector) (key : UInt16) (value : List UInt8) : Sector :=
  padded (s.bytes.take (log s).stop ++ encodeRecord key value)

/-- The records of the store after a write of `value` under `key`: the old log and the
new record, or the compacted table. -/
def writtenRecords (s : Sector) (key : UInt16) (value : List UInt8) : List Record :=
  if stateOf s = .valid ∧ (log s).stop + recordSize value.length ≤ 4096 then
    (log s).records ++ [⟨key, value, (log s).stop⟩]
  else layout 8 (newTable s key value)

/-- The sector after a write that fits. -/
def written (s : Sector) (key : UInt16) (value : List UInt8) : Sector :=
  if stateOf s = .valid ∧ (log s).stop + recordSize value.length ≤ 4096 then
    appended s key value
  else imageSector (newTable s key value)

theorem appended_valid {s : Sector} {key : UInt16} {value : List UInt8}
    (hst : Storable (key, value)) (hs : headerOf s = .valid)
    (hfit : (log s).stop + recordSize value.length ≤ 4096) :
    stateOf (appended s key value) = .valid ∧ log (appended s key value) =
      ⟨(log s).records ++ [⟨key, value, (log s).stop⟩], true,
        (log s).stop + recordSize value.length⟩ := by
  have hsize := s.size
  have hlen : (s.bytes.take (log s).stop).length = (log s).stop := by
    rw [List.length_take, hsize]
    exact Nat.min_eq_left (log_stop_le s)
  have hlen' : (s.bytes.take (log s).stop ++ encodeRecord key value).length =
      (log s).stop + recordSize value.length := by rw [List.length_append, hlen, length_encodeRecord]
  have hbytes : (appended s key value).bytes = s.bytes.take (log s).stop ++
      (encodeTable [(key, value)] ++ blank (4096 - ((log s).stop + recordSize value.length))) := by
    rw [appended, padded_bytes (by omega), hlen', List.append_assoc]
    simp
  -- the old chain is in front of the end, the new record behind it
  have htake : s.bytes.take (log s).stop = (appended s key value).bytes.take (log s).stop := by
    rw [hbytes, List.take_left' hlen]
  have hold := chain_congr htake (chain_log s)
  have hnew := chain_encodeTable (t := [(key, value)]) (by simpa using hst) hbytes
  rw [hlen] at hnew
  have hchain := chain_append hold hnew
  have htail := padded_tailBlank (hlen'.trans_le hfit)
  rw [hlen', ← appended] at htail
  have h8 : 8 ≤ (log s).stop := by have := log_stop_eq s; omega
  have hhead : headerOf (appended s key value) = .valid := by
    rw [headerOf_congr h8 htake, hs]
  have hv := valid_of_chain hhead hchain (by simpa using htail)
  simpa [layout] using hv

/-- A write that fits leaves a valid store with exactly the written records. -/
theorem written_valid {s : Sector} {key : UInt16} {value : List UInt8}
    (hst : Storable (key, value))
    (hfit : liveSize (Function.update (kvMap s) key (liveValue value)) ≤ 4096) :
    stateOf (written s key value) = .valid ∧
      (log (written s key value)).records = writtenRecords s key value := by
  rw [liveSize_newTable hst] at hfit
  rw [written, writtenRecords]
  split_ifs with h
  · obtain ⟨hv, hl⟩ := appended_valid hst ((stateOf_valid_iff s).mp h.1).1 h.2
    exact ⟨hv, by rw [hl]⟩
  · obtain ⟨hv, hl⟩ := imageSector_valid (fun e he => (newTable_storable hst e he).1) hfit
    exact ⟨hv, by rw [hl]⟩

/-- A write that fits updates the map at its key and nowhere else. -/
theorem kvMap_written {s : Sector} {key : UInt16} {value : List UInt8}
    (hst : Storable (key, value))
    (hfit : liveSize (Function.update (kvMap s) key (liveValue value)) ≤ 4096) :
    kvMap (written s key value) = Function.update (kvMap s) key (liveValue value) := by
  obtain ⟨hv, hl⟩ := written_valid hst hfit
  rw [kvMap_of_header ((stateOf_valid_iff _).mp hv).1, hl, writtenRecords]
  split_ifs with h
  · rw [kvMap_of_header ((stateOf_valid_iff s).mp h.1).1]
    simp [logEntries]
  · rw [logEntries_layout (fun e he => (newTable_storable hst e he).2), latest_newTable]

theorem kvMap_imageSector {t : Table} (hst : ∀ e ∈ t, Storable e ∧ e.2 ≠ [])
    (h : 8 + tableSize t ≤ 4096) : kvMap (imageSector t) = latest (tableLog t) := by
  obtain ⟨hv, hl⟩ := imageSector_valid (fun e he => (hst e he).1) h
  rw [kvMap_of_header ((stateOf_valid_iff _).mp hv).1, hl,
    logEntries_layout fun e he => (hst e he).2]

/-- A store with one byte under key 1. -/
def oneSetting : Sector := imageSector [(1, [0x41])]

theorem oneSetting_valid : stateOf oneSetting = .valid ∧ (log oneSetting).stop = 20 := by
  obtain ⟨hv, hl⟩ := imageSector_valid (t := [(1, [0x41])]) (by decide) (by decide)
  rw [oneSetting, hl]
  exact ⟨hv, rfl⟩

theorem kvMap_oneSetting (k : UInt16) :
    kvMap oneSetting k = if k = 1 then some [0x41] else none := by
  rw [oneSetting, kvMap_imageSector (by decide) (by decide)]
  simp [latest, tableLog, Function.update_apply]

/-- `append` writes if and only if the new live records fit. -/
theorem exec_append {key : UInt16} {value : List UInt8} (hst : Storable (key, value)) (s : Sector) :
    exec (append key value) s =
      if liveSize (Function.update (kvMap s) key (liveValue value)) ≤ 4096 then
        (.ok (), written s key value)
      else (.error .enospc, s) := by
  rw [append, exec_bind_of (exec_scan s), liveSize_newTable hst, written]
  by_cases h : stateOf s = .valid ∧ (log s).stop + recordSize value.length ≤ 4096
  · obtain ⟨hv, -, ht⟩ := (stateOf_valid_iff s).mp h.1
    have hlen : (s.bytes.take (log s).stop).length = (log s).stop := by
      rw [List.length_take, s.size]
      exact Nat.min_eq_left (log_stop_le s)
    have hw := exec_writeVerified (s.bytes.take (log s).stop) (encodeRecord key value)
      (by rw [hlen, length_encodeRecord]; exact h.2)
    rw [hlen, padded_of_tailBlank (log_stop_le s) ht, ← appended] at hw
    have hfit : 8 + tableSize (newTable s key value) ≤ 4096 := by
      have h1 := tableSize_put_le (survivors s) key value
      have h2 := tableSize_survivors_le s
      have h3 := log_stop_eq s
      rw [← newTable] at h1
      omega
    simp only [hv, ne_eq, not_true_eq_false, if_false]
    rw [if_pos h, if_pos hfit, if_pos h, hw]
  · have hcond : ¬(stateOf s = .valid ∧
        (if headerOf s ≠ .valid then 0 else (log s).stop) + recordSize value.length ≤ 4096) := by
      intro hc
      have hv := ((stateOf_valid_iff s).mp hc.1).1
      rw [if_neg (by simp [hv])] at hc
      exact h hc
    rw [if_neg h]
    simp only [kvSectorSize]
    rw [if_neg hcond, exec_rebuild]

end BekenCam.FlashKv
