import BekenCam.FlashKvLog

/-!
# Reading the store

The state of a sector and the map it holds. Every read-only function of the store is
evaluated here once; the writing functions and their callers use these equations.
-/
namespace BekenCam.FlashKv

open Prog

/-! ## The state -/

def headerOf (s : Sector) : FlashKvState :=
  if readU32le (slice s.bytes 0 8) = kvMagic ∧ readU32le ((slice s.bytes 0 8).drop 4) = kvVersion then
    .valid
  else if (slice s.bytes 0 8).any (· ≠ 0xFF) then .foreign
  else .blank

theorem exec_headerState (s : Sector) : exec headerState s = (headerOf s, s) := by
  rw [headerState, exec_flashRead_bind, headerOf]
  split_ifs <;> rfl

theorem headerOf_of_encodeHeader {s : Sector} (h : slice s.bytes 0 8 = encodeHeader) :
    headerOf s = .valid := by
  rw [headerOf, h, if_pos ⟨by decide, by decide⟩]

theorem encodeHeader_of_headerOf {s : Sector} (h : headerOf s = .valid) :
    slice s.bytes 0 8 = encodeHeader := by
  have hlen : (slice s.bytes 0 8).length = 8 := length_slice_of_le (by rw [s.size]; decide)
  have hboth : readU32le (slice s.bytes 0 8) = kvMagic ∧
      readU32le ((slice s.bytes 0 8).drop 4) = kvVersion := by
    by_contra hc
    rw [headerOf, if_neg hc] at h
    split_ifs at h
  match hb : slice s.bytes 0 8, hlen with
  | [a, b, c, d, e, f, g, i], _ =>
    rw [hb] at hboth
    have h1 := writeU32le_readU32le a b c d [e, f, g, i]
    have h2 := writeU32le_readU32le e f g i []
    rw [hboth.1] at h1
    rw [show readU32le [e, f, g, i] = kvVersion from hboth.2] at h2
    rw [encodeHeader, h1, h2]
    rfl

theorem headerOf_congr {s s' : Sector} {stop : ℕ} (hstop : 8 ≤ stop)
    (heq : s.bytes.take stop = s'.bytes.take stop) : headerOf s' = headerOf s := by
  have h : slice s.bytes 0 8 = slice s'.bytes 0 8 := slice_congr heq (by omega)
  rw [headerOf, headerOf, h]

/-- The log behind the header. -/
def log (s : Sector) : Log := logFrom s headerSize

theorem exec_walk {β : Type} (visit : β → Record → β) (ctx : β) (s : Sector) :
    exec (walk visit ctx) s =
      (((log s).clean, (log s).records.foldl visit ctx, (log s).stop), s) :=
  exec_walkFrom visit ctx headerSize s

theorem chain_log (s : Sector) : Chain s 8 (log s).records (log s).stop := chain_logFrom s 8

theorem log_stop_eq (s : Sector) : (log s).stop = 8 + recordsSize (log s).records :=
  chain_stop (chain_log s)

theorem log_stop_le (s : Sector) : (log s).stop ≤ 4096 := chain_le (by omega) (chain_log s)

/-- All bytes from `off` on are erased. -/
def TailBlank (s : Sector) (off : ℕ) : Prop := s.bytes.drop off = blank (4096 - off)

instance (s : Sector) (off : ℕ) : Decidable (TailBlank s off) :=
  inferInstanceAs (Decidable (_ = _))

theorem any_ne_iff (l : List UInt8) : l.any (· ≠ 0xFF) = true ↔ l ≠ blank l.length := by
  simp [blank, List.eq_replicate_iff]

theorem exec_tailIsBlank (s : Sector) (off : ℕ) :
    exec (tailIsBlank off) s = (decide (TailBlank s off), s) := by
  have hsize := s.size
  induction off using tailIsBlank.induct with
  | case1 off hoff ih =>
    rw [tailIsBlank, if_pos hoff, exec_flashRead_bind]
    simp only [kvSectorSize, flashReadBlockSize] at hoff ih hsize ⊢
    -- the tail is the block just read followed by the tail behind it
    set n := min (4096 - off) 32 with hn
    have hlen : (slice s.bytes off n).length = n := length_slice_of_le (by omega)
    have hsplit : s.bytes.drop off = slice s.bytes off n ++ s.bytes.drop (off + 32) := by
      rw [drop_eq_slice_append s.bytes off n]
      congr 1
      rcases Nat.lt_or_ge n 32 with h | h
      · rw [List.drop_eq_nil_of_le (by omega), List.drop_eq_nil_of_le (by omega)]
      · rw [show n = 32 by omega]
    have hblank : blank (4096 - off) = blank n ++ blank (4096 - (off + 32)) := by
      rw [← blank_add]
      congr 1
      omega
    have hiff : TailBlank s off ↔ slice s.bytes off n = blank n ∧ TailBlank s (off + 32) := by
      rw [TailBlank, TailBlank, hsplit, hblank]
      constructor
      · intro h
        exact List.append_inj h (by simp [hlen])
      · rintro ⟨h1, h2⟩
        rw [h1, h2]
    by_cases hb : slice s.bytes off n = blank n
    · have hany : (slice s.bytes off n).any (· ≠ 0xFF) = false := by
        rw [← Bool.not_eq_true, any_ne_iff, hlen]
        exact not_not.mpr hb
      rw [hany, if_neg (by simp), ih]
      simp [hiff, hb]
    · have hany : (slice s.bytes off n).any (· ≠ 0xFF) = true := by
        rw [any_ne_iff, hlen]
        exact hb
      rw [if_pos hany]
      simp [hiff, hb]
  | case2 off hoff =>
    rw [tailIsBlank, if_neg hoff]
    simp only [kvSectorSize, not_lt] at hoff hsize
    have ht : TailBlank s off := by
      rw [TailBlank, List.drop_eq_nil_of_le (by omega), Nat.sub_eq_zero_of_le hoff]
      rfl
    simp [ht]

/-- What `flash_kv_state` reports. -/
def stateOf (s : Sector) : FlashKvState :=
  if headerOf s ≠ .valid then headerOf s
  else if (log s).clean ∧ TailBlank s (log s).stop then .valid
  else .torn

theorem exec_scan (s : Sector) :
    exec scan s = ((stateOf s, if headerOf s ≠ .valid then 0 else (log s).stop), s) := by
  rw [scan, exec_bind_of (exec_headerState s)]
  by_cases hh : headerOf s ≠ .valid
  · simp [stateOf, hh]
  · rw [if_neg hh, exec_bind_of (exec_walk _ _ s)]
    by_cases hc : (log s).clean
    · simp only [hc, Bool.not_true, Bool.false_eq_true, if_false]
      rw [exec_bind_of (exec_tailIsBlank s _)]
      by_cases ht : TailBlank s (log s).stop <;> simp_all [stateOf]
    · simp_all [stateOf]

theorem exec_flashKvState (s : Sector) : exec flashKvState s = (stateOf s, s) := by
  rw [flashKvState, exec_bind_of (exec_scan s)]
  rfl

/-- A valid store: header, a clean log, and nothing but erased bytes behind it. -/
theorem stateOf_valid_iff (s : Sector) : stateOf s = .valid ↔
    headerOf s = .valid ∧ (log s).clean = true ∧ TailBlank s (log s).stop := by
  unfold stateOf
  split_ifs with h1 h2 <;> simp_all

theorem headerOf_of_torn {s : Sector} (h : stateOf s = .torn) : headerOf s = .valid := by
  unfold stateOf at h
  split_ifs at h with h1
  · exfalso
    unfold headerOf at h
    split_ifs at h
  · simpa using h1

/-! ## The map -/

/-- An empty value in the log removes its key. -/
def liveValue (v : List UInt8) : Option (List UInt8) := if v = [] then none else some v

def logEntries (rs : List Record) : List (UInt16 × Option (List UInt8)) :=
  rs.map (fun r => (r.key, liveValue r.value))

/-- The key-value map a sector holds. -/
def kvMap (s : Sector) : UInt16 → Option (List UInt8) :=
  if headerOf s = .valid then latest (logEntries (log s).records) else fun _ => none

theorem kvMap_of_header {s : Sector} (h : headerOf s = .valid) :
    kvMap s = latest (logEntries (log s).records) := if_pos h

theorem kvMap_of_not_header {s : Sector} (h : headerOf s ≠ .valid) (k : UInt16) :
    kvMap s k = none := by rw [kvMap, if_neg h]

theorem latest_logEntries_mem {rs : List Record} {key : UInt16} {v : List UInt8}
    (h : latest (logEntries rs) key = some v) :
    v ≠ [] ∧ ∃ r ∈ rs, r.key = key ∧ r.value = v := by
  induction rs using List.reverseRecOn with
  | nil => simp [logEntries] at h
  | append_singleton rs r ih =>
    simp only [logEntries, List.map_append, List.map_cons, List.map_nil,
      latest_append_singleton] at h ih
    by_cases hk : key = r.key
    · subst hk
      rw [Function.update_self, liveValue] at h
      split_ifs at h with hv
      cases h
      exact ⟨hv, r, by simp, rfl, rfl⟩
    · rw [Function.update_of_ne hk] at h
      obtain ⟨hv, q, hq, hqk⟩ := ih h
      exact ⟨hv, q, by simp [hq], hqk⟩

/-- A stored value is non-empty, at most 256 bytes long, and stored under a real key. -/
theorem kvMap_some {s : Sector} {key : UInt16} {v : List UInt8} (h : kvMap s key = some v) :
    key ≠ flashKvKeyNone ∧ v ≠ [] ∧ v.length ≤ 256 := by
  by_cases hh : headerOf s = .valid
  · rw [kvMap_of_header hh] at h
    obtain ⟨hv, r, hr, rfl, rfl⟩ := latest_logEntries_mem h
    have he := (entryAt_valid_iff _ _ _ _).mp (chain_mem (chain_log s) hr)
    exact ⟨he.1, hv, he.2.1⟩
  · simp [kvMap_of_not_header hh] at h

/-- What the lookup has found after the records seen so far. -/
theorem foldl_lookupVisit (rs : List Record) (key : UInt16) :
    let l := rs.foldl lookupVisit ⟨key, .error .enoent, 0⟩
    l.key = key ∧
      match latest (logEntries rs) key with
      | none => l.len = .error .enoent
      | some v => l.len = .ok v.length ∧ ∃ r ∈ rs, r.off = l.off ∧ r.value = v := by
  induction rs using List.reverseRecOn with
  | nil => simp [logEntries]
  | append_singleton rs r ih =>
    obtain ⟨hkey, hmatch⟩ := ih
    simp only [logEntries, List.map_append, List.map_cons, List.map_nil, List.foldl_append,
      List.foldl_cons, List.foldl_nil, latest_append_singleton] at hmatch ⊢
    rw [lookupVisit, hkey]
    by_cases hk : r.key = key
    · subst hk
      rw [if_neg (by simp), Function.update_self, liveValue]
      by_cases hv : r.value = []
      · simp [hv]
      · have hlen : r.value.length ≠ 0 := by simpa using hv
        rw [if_neg hv, if_pos hlen]
        exact ⟨rfl, rfl, r, by simp, rfl, rfl⟩
    · rw [if_pos hk, Function.update_of_ne (Ne.symm hk)]
      refine ⟨hkey, ?_⟩
      cases hl : latest (rs.map (fun r => (r.key, liveValue r.value))) key with
      | none => simpa [hl] using hmatch
      | some v =>
        simp only [hl] at hmatch ⊢
        obtain ⟨hlen, q, hq, hoff⟩ := hmatch
        exact ⟨hlen, q, by simp [hq], hoff⟩

/-- The answer of `flash_kv_get` about a stored value, and the bytes it copies. -/
def getAnswer (stored : Option (List UInt8)) (buf : Bool) (size exactSize : ℕ) :
    Except Errno ℕ × List UInt8 :=
  match stored with
  | none => (.error .enoent, [])
  | some v =>
    if exactSize ≠ 0 ∧ v.length ≠ exactSize then (.error .ebadmsg, [])
    else if buf then
      if size < v.length then (.error .emsgsize, []) else (.ok v.length, v)
    else (.ok v.length, [])

theorem exec_flashKvGet {key : UInt16} (hkey : key ≠ flashKvKeyNone) (buf : Bool)
    (size exactSize : ℕ) (s : Sector) :
    exec (flashKvGet key buf size exactSize) s =
      (getAnswer (kvMap s key) buf size exactSize, s) := by
  rw [flashKvGet, if_neg hkey, exec_bind_of (exec_headerState s)]
  by_cases hh : headerOf s ≠ .valid
  · rw [if_pos hh, kvMap_of_not_header hh]
    rfl
  rw [if_neg hh, exec_bind_of (exec_walk _ _ s), kvMap_of_header (not_ne_iff.mp hh)]
  have hl := (foldl_lookupVisit (log s).records key).2
  cases hm : latest (logEntries (log s).records) key with
  | none =>
    simp only [hm] at hl
    simp only [hl]
    rfl
  | some v =>
    simp only [hm] at hl
    obtain ⟨hlen, r, hr, hoff, hv⟩ := hl
    have hentry := (entryAt_valid_iff _ _ _ _).mp (chain_mem (chain_log s) hr)
    have hread : slice s.bytes (r.off + 4) v.length = v := by
      rw [← hv]
      exact hentry.2.2.2.2.1
    simp only [hlen, getAnswer, ← hoff]
    split_ifs
    · rfl
    · rfl
    · rw [exec_flashRead_bind, recordHeadSize, hread]
      rfl
    · rfl

theorem exec_flashKvGet_none (buf : Bool) (size exactSize : ℕ) (s : Sector) :
    exec (flashKvGet flashKvKeyNone buf size exactSize) s = ((.error .einval, []), s) := by
  rw [flashKvGet, if_pos rfl]
  rfl

end BekenCam.FlashKv
