import BekenCam.FlashKvWrite

/-!
# Listing the store

`flash_kv_foreach` walks the log twice: the first pass keeps the offset of the newest
record of each key in a table, the second shows every record to the visitor and marks
it by a look into the table. What a visitor sees is compared with the lookup of
`flash_kv_get`, which walks the log on its own.
-/
namespace BekenCam.FlashKv

/-- An entry of the table of the first pass. -/
structure Latest where
  key : UInt16
  off : UInt16
  deriving DecidableEq, Repr

inductive RecordStatus
  | live
  | old
  | deleted
  deriving DecidableEq, Repr

/-- A record as the visitor is shown it. -/
structure FlashKvRecord where
  offset : ℕ
  key : UInt16
  len : ℕ
  value : List UInt8
  status : RecordStatus
  deriving DecidableEq, Repr

/-- The entries `flash_kv_foreach` allocates. -/
def maxRecords : ℕ := (kvSectorSize - headerSize) / (recordHeadSize + recordCrcSize)

/-- The loop of `latest_visit` from entry `i` on, where `t` is the rest of the table.
`none` is a store behind the allocated entries. -/
def latestVisitFrom (r : Record) (i : ℕ) : List Latest → Option (List Latest)
  | [] => if i < maxRecords then some [⟨r.key, UInt16.ofNat r.off⟩] else none
  | l :: t =>
    if l.key = r.key then some ({ l with off := UInt16.ofNat r.off } :: t)
    else (latestVisitFrom r (i + 1) t).map (l :: ·)

def latestVisit (table : Option (List Latest)) (r : Record) : Option (List Latest) :=
  table.bind (latestVisitFrom r 0)

def reportVisit {σ : Type} (table : List Latest) (visit : σ → FlashKvRecord → σ) (user : σ)
    (r : Record) : σ :=
  let len := r.value.length
  let status : RecordStatus :=
    if table.any (fun l => l.key = r.key ∧ l.off.toNat = r.off) then
      if len ≠ 0 then .live else .deleted
    else .old
  visit user ⟨r.off, r.key, len, r.value, status⟩

/-- The state, the visitor's context and `*used`. `none` is a store behind the table. -/
def flashKvForeach {σ : Type} (visit : σ → FlashKvRecord → σ) (ctx : σ) :
    FlashM (Option (FlashKvState × σ × ℕ)) := do
  let (state, _) ← scan
  if state ≠ .valid ∧ state ≠ .torn then
    return some (state, ctx, 0)
  else
    let (_, table, _) ← walk latestVisit (some [])
    match table with
    | none => return none
    | some table =>
      let (_, ctx, stop) ← walk (reportVisit table visit) ctx
      return some (state, ctx, stop)

/-! ## The first pass -/

/-- The offset of the newest record of each key. -/
def newestOff (rs : List Record) : UInt16 → Option ℕ :=
  latest (rs.map (fun r => (r.key, some r.off)))

/-- The table holds the newest offset of every key once. -/
structure Newest (rs : List Record) (t : List Latest) : Prop where
  nodup : (t.map Latest.key).Nodup
  mem : ∀ key off, (∃ l ∈ t, l.key = key ∧ l.off.toNat = off) ↔ newestOff rs key = some off
  length : t.length ≤ rs.length

/-- The loop finds the entry of the key or appends one. -/
theorem latestVisitFrom_spec (r : Record) (t : List Latest) (i : ℕ)
    (ht : (t.map Latest.key).Nodup) (hi : i + t.length < maxRecords) :
    ∃ t', latestVisitFrom r i t = some t' ∧ (t'.map Latest.key).Nodup ∧
      t'.length ≤ t.length + 1 ∧
      ∀ l, l ∈ t' ↔ (l ∈ t ∧ l.key ≠ r.key) ∨ l = ⟨r.key, UInt16.ofNat r.off⟩ := by
  induction t generalizing i with
  | nil =>
    refine ⟨[⟨r.key, UInt16.ofNat r.off⟩], ?_, by simp, by simp, by simp⟩
    exact if_pos hi
  | cons e t ih =>
    obtain ⟨hnot, hrest⟩ := List.nodup_cons.mp ht
    by_cases hk : e.key = r.key
    · refine ⟨{ e with off := UInt16.ofNat r.off } :: t, if_pos hk, ht, by simp, ?_⟩
      intro l
      have hdistinct : l ∈ t → l.key ≠ r.key := by
        intro hl heq
        exact hnot (List.mem_map.mpr ⟨l, hl, heq.trans hk.symm⟩)
      rw [List.mem_cons, List.mem_cons, hk]
      constructor
      · rintro (rfl | hl)
        · exact Or.inr rfl
        · exact Or.inl ⟨Or.inr hl, hdistinct hl⟩
      · rintro (⟨rfl | hl, hne⟩ | rfl)
        · exact absurd hk hne
        · exact Or.inr hl
        · exact Or.inl rfl
    · have hlen : i + 1 + t.length < maxRecords := by
        rw [List.length_cons] at hi
        omega
      obtain ⟨t', hrun, hnodup, hlength, hmem⟩ := ih (i + 1) hrest hlen
      refine ⟨e :: t', ?_, ?_, by simpa using hlength, ?_⟩
      · rw [latestVisitFrom, if_neg hk, hrun]
        rfl
      · refine List.nodup_cons.mpr ⟨?_, hnodup⟩
        intro hin
        obtain ⟨l, hl, hkey⟩ := List.mem_map.mp hin
        rcases (hmem l).mp hl with ⟨hl, -⟩ | rfl
        · exact hnot (List.mem_map.mpr ⟨l, hl, hkey⟩)
        · exact hk hkey.symm
      · intro l
        rw [List.mem_cons, hmem, List.mem_cons]
        constructor
        · rintro (rfl | ⟨hl, hne⟩ | rfl)
          · exact Or.inl ⟨Or.inl rfl, hk⟩
          · exact Or.inl ⟨Or.inr hl, hne⟩
          · exact Or.inr rfl
        · rintro (⟨rfl | hl, hne⟩ | rfl)
          · exact Or.inl rfl
          · exact Or.inr (Or.inl ⟨hl, hne⟩)
          · exact Or.inr (Or.inr rfl)

theorem newestOff_append (rs : List Record) (r : Record) :
    newestOff (rs ++ [r]) = Function.update (newestOff rs) r.key (some r.off) := by
  simp [newestOff]

/-- One more record in the first pass. -/
theorem latestVisit_newest {rs : List Record} {t : List Latest} {r : Record}
    (h : Newest rs t) (hoff : r.off < 65536) (hfit : rs.length < maxRecords) :
    ∃ t', latestVisit (some t) r = some t' ∧ Newest (rs ++ [r]) t' := by
  have hlen := h.length
  obtain ⟨t', hrun, hnodup, hlength, hmem⟩ := latestVisitFrom_spec r t 0 h.nodup (by omega)
  have hcast : (UInt16.ofNat r.off).toNat = r.off := by
    rw [UInt16.toNat_ofNat']
    exact Nat.mod_eq_of_lt hoff
  refine ⟨t', hrun, hnodup, ?_, by rw [List.length_append]; simp; omega⟩
  intro key off
  rw [newestOff_append]
  by_cases hk : key = r.key
  · subst hk
    rw [Function.update_self, Option.some.injEq]
    constructor
    · rintro ⟨l, hl, hkey, rfl⟩
      rcases (hmem l).mp hl with ⟨-, hne⟩ | rfl
      · exact absurd hkey hne
      · exact hcast.symm
    · rintro rfl
      exact ⟨⟨r.key, UInt16.ofNat r.off⟩, (hmem _).mpr (Or.inr rfl), rfl, hcast⟩
  · rw [Function.update_of_ne hk, ← h.mem]
    constructor
    · rintro ⟨l, hl, rfl, rfl⟩
      rcases (hmem l).mp hl with ⟨hl, -⟩ | rfl
      · exact ⟨l, hl, rfl, rfl⟩
      · exact absurd rfl hk
    · rintro ⟨l, hl, rfl, rfl⟩
      exact ⟨l, (hmem l).mpr (Or.inl ⟨hl, hk⟩), rfl, rfl⟩

/-- The first pass over a log that fits the table. -/
theorem foldl_latestVisit {rs : List Record} (hoff : ∀ r ∈ rs, r.off < 65536)
    (hfit : rs.length ≤ maxRecords) :
    ∃ t, rs.foldl latestVisit (some []) = some t ∧ Newest rs t := by
  induction rs using List.reverseRecOn with
  | nil => exact ⟨[], rfl, ⟨by simp, by simp [newestOff], le_rfl⟩⟩
  | append_singleton rs r ih =>
    rw [List.length_append, List.length_singleton] at hfit
    obtain ⟨t, hrun, ht⟩ := ih (fun q hq => hoff q (by simp [hq])) (by omega)
    obtain ⟨t', hstep, ht'⟩ := latestVisit_newest ht (hoff r (by simp)) (by omega)
    refine ⟨t', ?_, ht'⟩
    rw [List.foldl_append, hrun]
    exact hstep

/-! ## Offsets and sizes of a chain -/

theorem chain_bounds {s : Sector} {rs : List Record} {off stop : ℕ} (h : Chain s off rs stop) :
    ∀ r ∈ rs, off ≤ r.off ∧ r.off + recordSize r.value.length ≤ stop := by
  induction rs generalizing off with
  | nil => simp
  | cons q rs ih =>
    obtain ⟨rfl, -, hrest⟩ := h
    have hstop := chain_stop hrest
    intro r hr
    rcases List.mem_cons.mp hr with rfl | hr
    · exact ⟨le_rfl, by omega⟩
    · have hb := ih hrest r hr
      exact ⟨by omega, hb.2⟩

/-- Later records lie behind earlier ones. -/
theorem chain_increasing {s : Sector} {rs : List Record} {off stop : ℕ}
    (h : Chain s off rs stop) : rs.Pairwise (fun r q => r.off < q.off) := by
  induction rs generalizing off with
  | nil => exact List.Pairwise.nil
  | cons q rs ih =>
    obtain ⟨rfl, -, hrest⟩ := h
    refine List.Pairwise.cons ?_ (ih hrest)
    intro r hr
    have hb := chain_bounds hrest r hr
    have hs := recordSize_eq q.value.length
    omega

/-- A record takes at least its head and its checksum. -/
theorem length_le_recordsSize (rs : List Record) :
    (recordHeadSize + recordCrcSize) * rs.length ≤ recordsSize rs := by
  induction rs with
  | nil => simp [recordsSize]
  | cons r rs ih =>
    have hs := recordSize_eq r.value.length
    simp only [recordsSize, List.map_cons, List.sum_cons, List.length_cons, recordHeadSize,
      recordCrcSize] at ih ⊢
    omega

/-- The densest log still fits the table. -/
theorem length_log_le (s : Sector) : (log s).records.length ≤ maxRecords := by
  have hsize := length_le_recordsSize (log s).records
  have hstop := log_stop_eq s
  have hle := log_stop_le s
  simp only [maxRecords, kvSectorSize, headerSize, recordHeadSize, recordCrcSize] at hsize ⊢
  omega

/-- The last record of a chain ends where the chain does. -/
theorem chain_getLast {s : Sector} {rs : List Record} {off stop : ℕ} (h : Chain s off rs stop) :
    stop = rs.getLast?.elim off (fun r => r.off + recordSize r.value.length) := by
  induction rs generalizing off with
  | nil => exact h.symm
  | cons r rs ih =>
    obtain ⟨rfl, -, hrest⟩ := h
    rw [ih hrest]
    cases rs with
    | nil => rfl
    | cons q rs => simp [List.getLast?_cons]

/-- The newest offset of a key is that of its last record. -/
theorem newestOff_eq_iff {older newer : List Record} {r : Record}
    (hinc : (older ++ r :: newer).Pairwise (fun p q => p.off < q.off)) :
    newestOff (older ++ r :: newer) r.key = some r.off ↔ ∀ q ∈ newer, q.key ≠ r.key := by
  have hbehind : ∀ q ∈ newer, r.off < q.off :=
    (List.pairwise_cons.mp (List.pairwise_append.mp hinc).2.1).1
  rw [newestOff, List.append_cons, List.map_append]
  constructor
  · intro h q hq hk
    have hagain : ∃ e ∈ newer.map (fun r => (r.key, some r.off)), e.1 = r.key :=
      ⟨(q.key, some q.off), List.mem_map.mpr ⟨q, hq, rfl⟩, hk⟩
    obtain ⟨e, he, -, hlatest⟩ :=
      latest_append_of_mem ((older ++ [r]).map (fun r => (r.key, some r.off))) hagain
    obtain ⟨p, hp, rfl⟩ := List.mem_map.mp he
    rw [h] at hlatest
    have hsame : r.off = p.off := Option.some.inj hlatest
    have hlt := hbehind p hp
    omega
  · intro h
    rw [latest_append_of_ne]
    · rw [List.map_append, List.map_singleton, latest_append_singleton, Function.update_self]
    · intro e he
      obtain ⟨q, hq, rfl⟩ := List.mem_map.mp he
      exact h q hq

/-! ## The second pass -/

/-- What a record's place in the log says about it. -/
def statusAmong (newer : List Record) (r : Record) : RecordStatus :=
  if ∃ q ∈ newer, q.key = r.key then .old
  else if r.value = [] then .deleted
  else .live

/-- The records as the visitor is shown them. -/
def shown : List Record → List FlashKvRecord
  | [] => []
  | r :: rs => ⟨r.off, r.key, r.value.length, r.value, statusAmong rs r⟩ :: shown rs

/-- A visit of the second pass shows the record with its status. -/
theorem reportVisit_eq {σ : Type} {older newer : List Record} {r : Record} {t : List Latest}
    (ht : Newest (older ++ r :: newer) t)
    (hinc : (older ++ r :: newer).Pairwise (fun p q => p.off < q.off))
    (visit : σ → FlashKvRecord → σ) (user : σ) :
    reportVisit t visit user r =
      visit user ⟨r.off, r.key, r.value.length, r.value, statusAmong newer r⟩ := by
  have hany : t.any (fun l => l.key = r.key ∧ l.off.toNat = r.off) = true ↔
      ∀ q ∈ newer, q.key ≠ r.key := by
    rw [← newestOff_eq_iff hinc, ← ht.mem]
    simp
  unfold reportVisit statusAmong
  dsimp only
  by_cases hlast : ∀ q ∈ newer, q.key ≠ r.key
  · have hno : ¬ ∃ q ∈ newer, q.key = r.key := by
      rintro ⟨q, hq, hk⟩
      exact hlast q hq hk
    rw [if_pos (hany.mpr hlast), if_neg hno]
    by_cases hv : r.value = []
    · simp [hv]
    · simp [hv]
  · have hyes : ∃ q ∈ newer, q.key = r.key := by
      by_contra hc
      exact hlast fun q hq hk => hc ⟨q, hq, hk⟩
    rw [if_neg (fun h => hlast (hany.mp h)), if_pos hyes]

theorem foldl_reportVisit {σ : Type} {rs : List Record} {t : List Latest} (ht : Newest rs t)
    (hinc : rs.Pairwise (fun p q => p.off < q.off)) (visit : σ → FlashKvRecord → σ) (user : σ) :
    rs.foldl (reportVisit t visit) user = (shown rs).foldl visit user := by
  -- the induction is on the records still to come, the table is about all of them
  suffices h : ∀ older newer user, older ++ newer = rs →
      newer.foldl (reportVisit t visit) user = (shown newer).foldl visit user from
    h [] rs user rfl
  intro older newer
  induction newer generalizing older with
  | nil => intro _ _; rfl
  | cons r newer ih =>
    rintro user rfl
    rw [List.foldl_cons, reportVisit_eq ht hinc, shown, List.foldl_cons]
    exact ih (older ++ [r]) _ (by simp)

/-! ## The whole call -/

theorem exec_flashKvForeach {s : Sector} (h : headerOf s = .valid) {σ : Type}
    (visit : σ → FlashKvRecord → σ) (ctx : σ) :
    exec (flashKvForeach visit ctx) s =
      (some (stateOf s, (shown (log s).records).foldl visit ctx, (log s).stop), s) := by
  have hstate : ¬ (stateOf s ≠ .valid ∧ stateOf s ≠ .torn) := by
    unfold stateOf
    rw [if_neg (not_not.mpr h)]
    split_ifs <;> simp
  have hoff : ∀ r ∈ (log s).records, r.off < 65536 := by
    intro r hr
    have hb := chain_bounds (chain_log s) r hr
    have hle := log_stop_le s
    omega
  obtain ⟨t, hrun, ht⟩ := foldl_latestVisit hoff (length_log_le s)
  rw [flashKvForeach, exec_bind_of (exec_scan s)]
  dsimp only
  rw [if_neg hstate, exec_bind_of (exec_walk latestVisit (some []) s)]
  simp only [hrun]
  rw [exec_bind_of (exec_walk _ _ s),
    foldl_reportVisit ht (chain_increasing (chain_log s)) visit ctx]
  rfl

/-- A blank or foreign sector shows nothing. -/
theorem exec_flashKvForeach_of_not_header {s : Sector} (h : headerOf s ≠ .valid) {σ : Type}
    (visit : σ → FlashKvRecord → σ) (ctx : σ) :
    exec (flashKvForeach visit ctx) s = (some (headerOf s, ctx, 0), s) := by
  have hstate : stateOf s = headerOf s := if_pos h
  have htorn : headerOf s ≠ .torn := by
    unfold headerOf
    split_ifs <;> simp
  rw [flashKvForeach, exec_bind_of (exec_scan s), hstate]
  dsimp only
  rw [if_pos ⟨h, htorn⟩]
  rfl

/-- The record behind what the visitor was shown. -/
def FlashKvRecord.record (r : FlashKvRecord) : Record := ⟨r.key, r.value, r.offset⟩

@[simp] theorem map_record_shown (rs : List Record) : (shown rs).map FlashKvRecord.record = rs := by
  induction rs with
  | nil => rfl
  | cons r rs ih => rw [shown, List.map_cons, ih]; rfl

/-- What is shown of a record follows from the records behind it. -/
theorem shown_split {rs : List Record} {older newer : List FlashKvRecord} {r : FlashKvRecord}
    (h : shown rs = older ++ r :: newer) :
    r.len = r.value.length ∧
      r.status = statusAmong (newer.map FlashKvRecord.record) r.record := by
  induction rs generalizing older with
  | nil => simp [shown] at h
  | cons q rs ih =>
    rw [shown] at h
    cases older with
    | nil =>
      obtain ⟨rfl, rfl⟩ := List.cons.inj h
      exact ⟨rfl, by rw [map_record_shown]; rfl⟩
    | cons p older => exact ih (List.cons.inj h).2

theorem mem_shown (older newer : List Record) (r : Record) :
    ⟨r.off, r.key, r.value.length, r.value, statusAmong newer r⟩ ∈
      shown (older ++ r :: newer) := by
  induction older with
  | nil => exact List.mem_cons_self
  | cons q older ih => exact List.mem_cons_of_mem _ ih

/-- The live records are the pairs of the map. -/
theorem live_iff_kvMap {s : Sector} (h : headerOf s = .valid) (key : UInt16)
    (value : List UInt8) :
    (∃ r ∈ shown (log s).records, r.status = .live ∧ r.key = key ∧ r.value = value) ↔
      kvMap s key = some value := by
  rw [kvMap_of_header h, latest_eq_some_iff]
  constructor
  · rintro ⟨r, hr, hlive, rfl, rfl⟩
    obtain ⟨older, newer, hsplit⟩ := List.append_of_mem hr
    have hstatus := (shown_split hsplit).2
    rw [hlive, statusAmong] at hstatus
    split_ifs at hstatus with hold hempty
    refine ⟨logEntries (older.map FlashKvRecord.record),
      logEntries (newer.map FlashKvRecord.record), ?_, ?_⟩
    · have hrecords := congrArg (List.map FlashKvRecord.record) hsplit
      rw [map_record_shown] at hrecords
      rw [hrecords]
      simp [logEntries, liveValue, FlashKvRecord.record] at hempty ⊢
      exact hempty
    · intro e he hk
      obtain ⟨q, hq, rfl⟩ := List.mem_map.mp he
      exact hold ⟨q, hq, hk⟩
  · rintro ⟨older, newer, hsplit, hnewer⟩
    obtain ⟨older, rest, hrecords, -, hrest⟩ := List.map_eq_append_iff.mp hsplit
    obtain ⟨r, newer, rfl, hr, rfl⟩ := List.map_eq_cons_iff.mp hrest
    obtain ⟨rfl, hvalue⟩ := Prod.mk.inj hr
    rw [liveValue] at hvalue
    split_ifs at hvalue with hempty
    refine ⟨_, hrecords ▸ mem_shown older newer r, ?_, rfl, Option.some.inj hvalue⟩
    have hno : ¬ ∃ q ∈ newer, q.key = r.key := by
      rintro ⟨q, hq, hk⟩
      exact hnewer _ (List.mem_map.mpr ⟨q, hq, rfl⟩) hk
    exact (if_neg hno).trans (if_neg hempty)

/-! ## The listing tells the truth -/

/-- What a listing of `s` owes its reader: the valid records in write order, the right
status on each, and where the last one ends. -/
structure Truthful (s : Sector) (visited : List FlashKvRecord) (used : ℕ) : Prop where
  /-- One valid record follows the other from the header on … -/
  chain : Chain s headerSize (visited.map FlashKvRecord.record) used
  /-- … and none follows the last. -/
  complete : ∀ key value, entryAt s used ≠ .valid key value
  len : ∀ r ∈ visited, r.len = r.value.length
  status : ∀ older r newer, visited = older ++ r :: newer →
    r.status = if ∃ q ∈ newer, q.key = r.key then .old
      else if r.value = [] then .deleted
      else .live
  live : ∀ key value size, value.length ≤ size →
    ((∃ r ∈ visited, r.status = .live ∧ r.key = key ∧ r.value = value) ↔
      (exec (flashKvGet key true size 0) s).1 = (.ok value.length, value))
  used_eq : used = visited.getLast?.elim headerSize (fun r => r.offset + recordSize r.len)

/-- `flash_kv_get` with room for the value reads exactly the map. -/
theorem flashKvGet_iff_kvMap (s : Sector) (key : UInt16) {value : List UInt8} {size : ℕ}
    (hsize : value.length ≤ size) :
    (exec (flashKvGet key true size 0) s).1 = (.ok value.length, value) ↔
      kvMap s key = some value := by
  by_cases hkey : key = flashKvKeyNone
  · subst hkey
    rw [exec_flashKvGet_none]
    constructor
    · intro h
      cases (Prod.mk.inj h).1
    · intro h
      exact absurd rfl (kvMap_some h).1
  · rw [exec_flashKvGet hkey]
    cases hm : kvMap s key with
    | none => simp [getAnswer]
    | some v =>
      by_cases hfit : size < v.length
      · have hne : v ≠ value := by
          rintro rfl
          omega
        simp [getAnswer, hfit, hne]
      · simp only [getAnswer, ne_eq, not_true_eq_false, false_and, if_false, if_true,
          if_neg hfit, Option.some.injEq]
        constructor
        · intro h
          exact (Prod.mk.inj h).2
        · rintro rfl
          rfl

/-- The log ends where no valid record starts. -/
theorem entryAt_logFrom_stop (s : Sector) (off : ℕ) (key : UInt16) (value : List UInt8) :
    entryAt s (logFrom s off).stop ≠ .valid key value := by
  induction off using logFrom.induct s with
  | case1 off h => rw [logFrom_finished h, h]; simp
  | case2 off h => rw [logFrom_broken h, h]; simp
  | case3 off k v h ih => rw [logFrom_valid h]; exact ih

theorem shown_truthful {s : Sector} (h : headerOf s = .valid) :
    Truthful s (shown (log s).records) (log s).stop where
  chain := by
    rw [map_record_shown]
    exact chain_log s
  complete := entryAt_logFrom_stop s headerSize
  len := by
    intro r hr
    obtain ⟨older, newer, hsplit⟩ := List.append_of_mem hr
    exact (shown_split hsplit).1
  status := by
    intro older r newer hsplit
    have hlater : (∃ q ∈ newer.map FlashKvRecord.record, q.key = r.record.key) ↔
        ∃ q ∈ newer, q.key = r.key := by
      simp [FlashKvRecord.record]
    rw [(shown_split hsplit).2]
    exact if_congr hlater rfl rfl
  live := by
    intro key value size hsize
    rw [live_iff_kvMap h, flashKvGet_iff_kvMap s key hsize]
  used_eq := by
    have hlast := chain_getLast (chain_log s)
    have hmap := map_record_shown (log s).records
    rw [← hmap, List.getLast?_map] at hlast
    rw [hlast]
    cases hl : (shown (log s).records).getLast? with
    | none => rfl
    | some r =>
      obtain ⟨older, newer, hsplit⟩ := List.append_of_mem (List.mem_of_getLast? hl)
      simp only [Option.map_some, Option.elim_some, (shown_split hsplit).1]
      rfl

/-- For every sector with a good header, whatever its records and its tail are: the
visitor is called for a truthful listing, the sector stays as it is, and the first pass
never has more entries than were allocated. -/
theorem flash_kv_foreach_truthful (s : Sector) (h : (exec headerState s).1 = .valid) :
    ∃ visited used, Truthful s visited used ∧
      (∀ (σ : Type) (visit : σ → FlashKvRecord → σ) (ctx : σ),
        exec (flashKvForeach visit ctx) s =
          (some (stateOf s, visited.foldl visit ctx, used), s)) ∧
      ∀ seen rest, visited = seen ++ rest → ∃ table : List Latest,
        (seen.map FlashKvRecord.record).foldl latestVisit (some []) = some table ∧
          table.length ≤ 511 := by
  rw [exec_headerState] at h
  refine ⟨shown (log s).records, (log s).stop, shown_truthful h,
    fun σ visit ctx => exec_flashKvForeach h visit ctx, ?_⟩
  intro seen rest hsplit
  have hrecords : (log s).records =
      seen.map FlashKvRecord.record ++ rest.map FlashKvRecord.record := by
    rw [← List.map_append, ← hsplit, map_record_shown]
  have hfit := length_log_le s
  rw [hrecords, List.length_append] at hfit
  have hoff : ∀ r ∈ seen.map FlashKvRecord.record, r.off < 65536 := by
    intro r hr
    have hb := chain_bounds (chain_log s) r (by rw [hrecords]; simp [hr])
    have hle := log_stop_le s
    omega
  obtain ⟨table, hrun, htable⟩ := foldl_latestVisit hoff (by omega)
  have hlen := htable.length
  have hmax : maxRecords = 511 := rfl
  exact ⟨table, hrun, by omega⟩

/-- A sector with a key written twice and one that was removed. -/
def rewritten : Sector := imageSector [(1, [7]), (1, [8, 9]), (2, [])]

theorem flash_kv_foreach_truthful_rewritten :
    ∃ visited used, Truthful rewritten visited used ∧
      (∀ (σ : Type) (visit : σ → FlashKvRecord → σ) (ctx : σ),
        exec (flashKvForeach visit ctx) rewritten =
          (some (stateOf rewritten, visited.foldl visit ctx, used), rewritten)) ∧
      ∀ seen rest, visited = seen ++ rest → ∃ table : List Latest,
        (seen.map FlashKvRecord.record).foldl latestVisit (some []) = some table ∧
          table.length ≤ 511 :=
  flash_kv_foreach_truthful rewritten (by
    rw [exec_headerState]
    exact headerOf_imageSector (t := [(1, [7]), (1, [8, 9]), (2, [])]) (by decide))

end BekenCam.FlashKv
