import BekenCam.FlashKvQuiet
import BekenCam.FlashKvWrite

/-!
# The store refines a finite map

The abstract store is a map from keys to non-empty values of at most 256 bytes. One
equation describes every `flash_kv_set` and `flash_kv_erase_key` call on every sector
content; the refinement, the exact out-of-space condition and the validity of what is
left behind are read off it.
-/
namespace BekenCam.FlashKv

open Prog

/-! ## The abstract store -/

/-- A finite map from the keys `0 .. 0xFFFE` to storable values. -/
structure KvStore where
  lookup : UInt16 → Option (List UInt8)
  wf : ∀ k v, lookup k = some v → k ≠ flashKvKeyNone ∧ v ≠ [] ∧ v.length ≤ 256

namespace KvStore

@[ext] theorem ext {m m' : KvStore} (h : m.lookup = m'.lookup) : m = m' := by
  cases m; cases m'; simp_all

def empty : KvStore := ⟨fun _ => none, by simp⟩

/-- Store a value; the empty value removes the key. -/
def set (m : KvStore) (key : UInt16) (value : List UInt8) (h : Storable (key, value)) :
    KvStore where
  lookup := Function.update m.lookup key (liveValue value)
  wf k v hv := by
    by_cases hk : k = key
    · rw [hk, Function.update_self, liveValue] at hv
      split_ifs at hv with hne
      cases hv
      exact ⟨hk ▸ h.1, hne, h.2⟩
    · rw [Function.update_of_ne hk] at hv
      exact m.wf k v hv

end KvStore

/-! ## Calls -/

/-- A call that stores or removes one key. -/
inductive WriteCall
  | set (key : UInt16) (data : Source)
  | eraseKey (key : UInt16)

namespace WriteCall

def key : WriteCall → UInt16
  | set key _ => key
  | eraseKey key => key

/-- The value the call wants stored; removing a key stores the empty value. -/
def value : WriteCall → List UInt8
  | set _ data => data.content
  | eraseKey _ => []

/-- A real key, and a length that is in range and backed by a pointer. -/
def Valid : WriteCall → Prop
  | set key data => key ≠ flashKvKeyNone ∧ data.len ≤ 256 ∧ (data.len = 0 ∨ data.isNull = false)
  | eraseKey key => key ≠ flashKvKeyNone

instance : DecidablePred Valid
  | set _ _ => inferInstanceAs (Decidable (_ ∧ _ ∧ _))
  | eraseKey _ => inferInstanceAs (Decidable (_ ≠ _))

def prog : WriteCall → FlashM (Except Errno Unit)
  | set key data => flashKvSet key data
  | eraseKey key => flashKvEraseKey key

theorem Valid.storable {w : WriteCall} (h : w.Valid) : Storable (w.key, w.value) := by
  cases w with
  | set key data =>
    refine ⟨h.1, ?_⟩
    cases data with
    | null len => simp [value, Source.content]
    | bytes b => exact h.2.1
  | eraseKey key => exact ⟨h, by simp [value]⟩

end WriteCall

inductive Call
  | write (w : WriteCall)
  | erase

def Call.prog : Call → FlashM (Except Errno Unit)
  | write w => w.prog
  | erase => flashKvErase

/-- What a successful call does to the abstract store. -/
def KvStore.apply (m : KvStore) : Call → KvStore
  | .write w => if h : w.Valid then m.set w.key w.value h.storable else m
  | .erase => .empty

/-! ## One equation for every write -/

/-- The map after a write. -/
def newMap (s : Sector) (w : WriteCall) : UInt16 → Option (List UInt8) :=
  Function.update (kvMap s) w.key (liveValue w.value)

/-- Removing a key makes room. -/
theorem liveSize_erase_le {key : UInt16} (hkey : key ≠ flashKvKeyNone) (s : Sector) :
    liveSize (Function.update (kvMap s) key none) ≤ 4096 := by
  have h1 := liveSize_kvMap_le s
  have h2 := logWeight_filter_le weight (survivors s) (fun e => e.1 ≠ key)
  have hst : Storable (key, []) := ⟨hkey, by simp⟩
  have h3 := liveSize_newTable (s := s) hst
  rw [newTable, put_liveValue_nil] at h3
  rw [← tableSize_eq_logWeight, ← tableSize_eq_logWeight] at h2
  rw [liveSize_kvMap] at h1
  have hl : liveValue ([] : List UInt8) = none := rfl
  rw [← hl, h3]
  omega

namespace WriteCall

/-- What a call decides before it comes to writing: a result, or to go on. -/
def checkErase (key : UInt16) : FlashM (Option (Except Errno Unit)) := do
  let (len, _) ← flashKvGet key false 0 0
  match len with
  | .error .enoent => return some (.ok ())
  | .error e => return some (.error e)
  | .ok _ => return none

@[inherit_doc checkErase]
def check : WriteCall → FlashM (Option (Except Errno Unit))
  | set key data =>
    if key = flashKvKeyNone ∨ data.len > flashKvMaxValueLen ∨ (data.len ≠ 0 ∧ data.isNull) then
      return some (.error .einval)
    else if data.len = 0 then checkErase key
    else do
      let (answer, current) ← flashKvGet key true data.len 0
      if answer = .ok data.len ∧ current = data.content then return some (.ok ()) else return none
  | eraseKey key => checkErase key

/-- The second half of a call: return what was decided, or write. -/
def finish (key : UInt16) (value : List UInt8) :
    Option (Except Errno Unit) → FlashM (Except Errno Unit)
  | some r => return r
  | none => append key value

theorem eraseKey_eq (key : UInt16) :
    flashKvEraseKey key = checkErase key >>= finish key [] := by
  rw [checkErase, bind_assoc, flashKvEraseKey]
  congr 1
  funext a
  obtain ⟨len, copied⟩ := a
  match len with
  | .error .enoent => rfl
  | .error .eio => rfl
  | .error .einval => rfl
  | .error .enospc => rfl
  | .error .ebadmsg => rfl
  | .error .emsgsize => rfl
  | .ok _ => rfl

/-- Every call is a check that cannot change anything, followed by at most one write. -/
theorem prog_eq (w : WriteCall) : w.prog = w.check >>= finish w.key w.value := by
  cases w with
  | eraseKey key => exact eraseKey_eq key
  | set key data =>
    simp only [prog, check, flashKvSet, WriteCall.key, WriteCall.value]
    split_ifs with harg h0
    · rfl
    · have hc : data.content = [] := by
        cases data with
        | null len => rfl
        | bytes b => exact List.length_eq_zero_iff.mp h0
      rw [hc]
      exact eraseKey_eq key
    · rw [bind_assoc]
      congr 1
      funext a
      obtain ⟨answer, current⟩ := a
      dsimp only
      split_ifs <;> rfl

section Reads

variable {P : FlashCmd → Prop} (hread : ∀ off n, P (.flashRead off n))

include hread

theorem only_checkErase (key : UInt16) : Only P (checkErase key) := by
  apply only_bind (only_flashKvGet hread key false 0 0)
  rintro ⟨len, -⟩
  dsimp only
  split <;> exact only_pure _

theorem only_check (w : WriteCall) : Only P w.check := by
  cases w with
  | eraseKey key => exact only_checkErase hread key
  | set key data =>
    apply only_ite (only_pure _)
    apply only_ite (only_checkErase hread key)
    apply only_bind (only_flashKvGet hread key true data.len 0)
    rintro ⟨answer, current⟩
    exact only_ite (only_pure _) (only_pure _)

end Reads

theorem quiet_check (w : WriteCall) : Quiet w.check := only_check (fun _ _ => rfl) w

end WriteCall

/-- The no-op test of `flash_kv_set` compares with the stored value. -/
theorem getAnswer_same_iff (stored : Option (List UInt8)) (b : List UInt8) :
    ((getAnswer stored true b.length 0).1 = .ok b.length ∧
      (getAnswer stored true b.length 0).2 = b) ↔ stored = some b := by
  cases stored with
  | none => simp [getAnswer]
  | some v =>
    simp only [getAnswer, ne_eq, not_true_eq_false, false_and, if_false, if_true]
    split_ifs with h
    · simp only [false_and, false_iff, Option.some.injEq]
      rintro rfl
      omega
    · simp only [Except.ok.injEq, Option.some.injEq]
      constructor
      · exact fun hv => hv.2
      · rintro rfl
        exact ⟨rfl, rfl⟩

theorem exec_checkErase {key : UInt16} (hkey : key ≠ flashKvKeyNone) (s : Sector) :
    exec (WriteCall.checkErase key) s =
      (if kvMap s key = none then some (.ok ()) else none, s) := by
  rw [WriteCall.checkErase, exec_bind_of (exec_flashKvGet hkey false 0 0 s)]
  cases hm : kvMap s key with
  | none => rfl
  | some v =>
    have ha : getAnswer (some v) false 0 0 = (.ok v.length, []) := by simp [getAnswer]
    rw [ha, if_neg (by simp)]
    rfl

/-- A valid call goes on to write unless the value is already there. -/
theorem exec_check {w : WriteCall} (hw : w.Valid) (s : Sector) :
    exec w.check s = (if kvMap s w.key = liveValue w.value then some (.ok ()) else none, s) := by
  cases w with
  | eraseKey key => exact exec_checkErase hw s
  | set key data =>
    obtain ⟨hkey, hlen, hnull⟩ := hw
    have harg : ¬(key = flashKvKeyNone ∨ data.len > flashKvMaxValueLen ∨
        (data.len ≠ 0 ∧ data.isNull)) := by
      simp only [flashKvMaxValueLen, not_or, not_lt, not_and, Bool.not_eq_true]
      exact ⟨hkey, hlen, fun h => hnull.resolve_left h⟩
    change exec (WriteCall.check (.set key data)) s =
      (if kvMap s key = liveValue data.content then some (.ok ()) else none, s)
    rw [WriteCall.check, if_neg harg]
    by_cases h0 : data.len = 0
    · -- a zero length is the same as erasing the key
      have hc : data.content = [] := by
        cases data with
        | null len => rfl
        | bytes b => exact List.length_eq_zero_iff.mp h0
      rw [if_pos h0, hc]
      exact exec_checkErase hkey s
    · have hc : data.content.length = data.len := by
        cases data with
        | null len => simp_all [Source.isNull]
        | bytes b => rfl
      have hne : data.content ≠ [] := by
        intro hb
        rw [hb] at hc
        exact h0 hc.symm
      have hl : liveValue data.content = some data.content := if_neg hne
      rw [if_neg h0, exec_bind_of (exec_flashKvGet hkey true data.len 0 s), ← hc, hl]
      dsimp only
      by_cases hsame : kvMap s key = some data.content
      · rw [if_pos hsame, if_pos ((getAnswer_same_iff (kvMap s key) data.content).mpr hsame)]
        rfl
      · rw [if_neg hsame, if_neg fun h => hsame ((getAnswer_same_iff _ data.content).mp h)]
        rfl

/-- What any valid write does, on any sector content: nothing if the value is already
there, an error if the live records would not fit, and the write otherwise. -/
theorem exec_write {w : WriteCall} (hw : w.Valid) (s : Sector) :
    exec w.prog s =
      if kvMap s w.key = liveValue w.value then (.ok (), s)
      else if liveSize (newMap s w) ≤ 4096 then (.ok (), written s w.key w.value)
      else (.error .enospc, s) := by
  rw [w.prog_eq, exec_bind_of (exec_check hw s)]
  split_ifs with hsame hfit
  · rfl
  · exact (exec_append hw.storable s).trans (if_pos hfit)
  · exact (exec_append hw.storable s).trans (if_neg hfit)

theorem exec_check_invalid {w : WriteCall} (hw : ¬w.Valid) (s : Sector) :
    exec w.check s = (some (.error .einval), s) := by
  cases w with
  | set key data =>
    have harg : key = flashKvKeyNone ∨ data.len > flashKvMaxValueLen ∨
        (data.len ≠ 0 ∧ data.isNull) := by
      by_contra hc
      simp only [flashKvMaxValueLen, not_or, not_lt, not_and, Bool.not_eq_true] at hc
      refine hw ⟨hc.1, hc.2.1, ?_⟩
      by_cases h0 : data.len = 0
      · exact .inl h0
      · exact .inr (hc.2.2 h0)
    rw [WriteCall.check, if_pos harg]
    rfl
  | eraseKey key =>
    have hk : key = flashKvKeyNone := not_not.mp hw
    rw [WriteCall.check, hk, WriteCall.checkErase, exec_bind_of (exec_flashKvGet_none false 0 0 s)]
    rfl

theorem exec_write_invalid {w : WriteCall} (hw : ¬w.Valid) (s : Sector) :
    exec w.prog s = (.error .einval, s) := by
  rw [w.prog_eq, exec_bind_of (exec_check_invalid hw s)]
  rfl

/-- A call that returns 0 has updated the map. -/
theorem kvMap_of_ok {w : WriteCall} {s : Sector} (h : (exec w.prog s).1 = .ok ()) :
    kvMap (exec w.prog s).2 = newMap s w := by
  by_cases hw : w.Valid
  · rw [exec_write hw] at h ⊢
    split_ifs at h ⊢ with hsame hfit
    · rw [newMap, ← hsame, Function.update_eq_self]
    · exact kvMap_written hw.storable hfit
  · rw [exec_write_invalid hw] at h
    cases h

theorem exec_eraseLoop (off : ℕ) :
    exec (eraseCheck off) Sector.erased = (.ok (), Sector.erased) := by
  induction off using eraseCheck.induct with
  | case1 off hoff ih =>
    have hb : ¬((slice Sector.erased.bytes off flashReadBlockSize).any (· ≠ 0xFF) = true) := by
      rw [Bool.not_eq_true, List.any_eq_false]
      intro b hmem
      have hb := List.eq_of_mem_replicate (List.mem_of_mem_drop (List.mem_of_mem_take hmem))
      simp [hb]
    rw [eraseCheck, if_pos hoff, exec_flashRead_bind, if_neg hb, ih]
  | case2 off hoff =>
    rw [eraseCheck, if_neg hoff]
    rfl

theorem exec_flashKvErase (s : Sector) : exec flashKvErase s = (.ok (), Sector.erased) := by
  rw [flashKvErase, exec_flashUnprotect_bind, exec_flashEraseSector_bind, exec_eraseLoop]

theorem headerOf_erased : headerOf Sector.erased ≠ .valid := by
  rw [headerOf, Sector.erased]
  decide

theorem kvMap_erased (k : UInt16) : kvMap Sector.erased k = none :=
  kvMap_of_not_header headerOf_erased k

/-- One record always fits into a sector that holds no store. -/
theorem fits_of_not_header {s : Sector} {key : UInt16} {value : List UInt8}
    (hs : headerOf s ≠ .valid) (hst : Storable (key, value)) :
    liveSize (Function.update (kvMap s) key (liveValue value)) ≤ 4096 := by
  have hput := liveSize_update_le (s := s) hst
  have hrec : recordSize value.length ≤ 264 := recordSize_le hst.2
  rw [liveSize_kvMap, survivors, if_neg hs, tableSize_nil] at hput
  omega

/-! ## Refinement -/

/-- The map `flash_kv_get` reads, with a buffer for the longest value. -/
def readKey (s : Sector) (key : UInt16) : Option (List UInt8) :=
  match (exec (flashKvGet key true flashKvMaxValueLen 0) s).1 with
  | (.ok _, value) => some value
  | (.error _, _) => none

theorem kvMap_keyNone (s : Sector) : kvMap s flashKvKeyNone = none := by
  cases h : kvMap s flashKvKeyNone with
  | none => rfl
  | some v => exact absurd rfl (kvMap_some h).1

theorem readKey_eq (s : Sector) : readKey s = kvMap s := by
  funext key
  by_cases hkey : key = flashKvKeyNone
  · rw [hkey, readKey, exec_flashKvGet_none, kvMap_keyNone]
  · rw [readKey, exec_flashKvGet hkey]
    cases hm : kvMap s key with
    | none => rfl
    | some v =>
      have hlen := (kvMap_some hm).2.2
      have ha : getAnswer (some v) true flashKvMaxValueLen 0 = (.ok v.length, v) := by
        simp only [getAnswer, ne_eq, not_true_eq_false, false_and, if_false, if_true,
          flashKvMaxValueLen]
        rw [if_neg (by omega)]
      rw [ha]

def readMap (s : Sector) : KvStore where
  lookup := readKey s
  wf k v h := kvMap_some (by rwa [readKey_eq] at h)

theorem lookup_apply {s : Sector} {w : WriteCall} (hw : w.Valid) :
    ((readMap s).apply (.write w)).lookup = newMap s w := by
  rw [KvStore.apply, dif_pos hw, newMap, ← readKey_eq]
  rfl

/-- Every read of every key answers as the abstract store says: the value and its
length, or `-ENOENT`; a wrong exact size and a short buffer are refused. -/
def Reads (s : Sector) (m : KvStore) : Prop :=
  ∀ key, key ≠ flashKvKeyNone → ∀ (buf : Bool) (size exactSize : ℕ),
    exec (flashKvGet key buf size exactSize) s =
      (getAnswer (m.lookup key) buf size exactSize, s)

theorem reads_of_lookup {s : Sector} {m : KvStore} (h : m.lookup = kvMap s) : Reads s m := by
  intro key hkey buf size exactSize
  rw [h]
  exact exec_flashKvGet hkey buf size exactSize s

/-- A call that returns 0 takes effect; one that returns an error does not. -/
def KvStore.step (m : KvStore) (c : Call) : Except Errno Unit → KvStore
  | .ok () => m.apply c
  | .error _ => m

def KvStore.replay (m : KvStore) (results : List (Call × Except Errno Unit)) : KvStore :=
  results.foldl (fun m cr => m.step cr.1 cr.2) m

/-- The results of a sequence of calls, and the sector after it. -/
def runCalls : List Call → Sector → List (Except Errno Unit) × Sector
  | [], s => ([], s)
  | c :: cs, s =>
    let r := exec c.prog s
    let rest := runCalls cs r.2
    (r.1 :: rest.1, rest.2)

/-- One call on any sector: the abstract store follows. -/
theorem step_lookup {s : Sector} {m : KvStore} (h : m.lookup = kvMap s) (c : Call) :
    (m.step c (exec c.prog s).1).lookup = kvMap (exec c.prog s).2 := by
  cases c with
  | erase =>
    rw [Call.prog, exec_flashKvErase]
    funext k
    exact (kvMap_erased k).symm
  | write w =>
    rw [Call.prog]
    by_cases hw : w.Valid
    · have hset : (m.apply (.write w)).lookup = newMap s w := by
        rw [KvStore.apply, dif_pos hw, newMap, ← h]
        rfl
      rw [exec_write hw]
      split_ifs with hsame hfit
      · rw [KvStore.step, hset, newMap, ← hsame, Function.update_eq_self]
      · rw [KvStore.step, hset]
        exact (kvMap_written hw.storable hfit).symm
      · exact h
    · rw [exec_write_invalid hw]
      exact h

theorem runCalls_lookup (cs : List Call) {s : Sector} {m : KvStore} (h : m.lookup = kvMap s) :
    (m.replay (cs.zip (runCalls cs s).1)).lookup = kvMap (runCalls cs s).2 := by
  induction cs generalizing s m with
  | nil => exact h
  | cons c cs ih => exact ih (step_lookup h c)

/-- From any sector content, after any calls, every read answers as the map that the
first reads gave, updated by the successful calls in order. -/
theorem flashKv_refines (s : Sector) (cs : List Call) :
    Reads (runCalls cs s).2 ((readMap s).replay (cs.zip (runCalls cs s).1)) :=
  reads_of_lookup (runCalls_lookup cs (readKey_eq s))

/-! ## Running out of space -/

/-- Every image that the walk in `rebuild` passes through, newest first. -/
def imageTrace (s : Sector) : List Image :=
  (exec (walk (fun imgs r => collectVisit (imgs.headD initialImage) r :: imgs) [initialImage]) s).1.2.1

theorem imageTrace_holds (rs : List Record) (hst : ∀ r ∈ rs, r.Storable)
    (hfit : 8 + recordsSize rs ≤ 4096) :
    let imgs := rs.foldl (fun imgs r => collectVisit (imgs.headD initialImage) r :: imgs)
      [initialImage]
    imgs.headD initialImage = rs.foldl collectVisit initialImage ∧
      ∀ img ∈ imgs, img.overflow = false ∧
        ∃ t : Table, img.Holds t ∧ ∀ e ∈ t, e.2.length ≤ 256 := by
  induction rs using List.reverseRecOn with
  | nil =>
    refine ⟨rfl, fun img hi => ?_⟩
    rw [List.foldl_nil, List.mem_singleton] at hi
    rw [hi]
    exact ⟨rfl, [], initialImage_holds, by simp⟩
  | append_singleton rs r ih =>
    have hsum : recordsSize (rs ++ [r]) = recordsSize rs + recordSize r.value.length := by
      simp [recordsSize]
    obtain ⟨hhead, hall⟩ := ih (fun q hq => hst q (by simp [hq])) (by omega)
    have hf := foldl_collectVisit (rs ++ [r]) hst hfit
    simp only [List.foldl_append, List.foldl_cons, List.foldl_nil] at hf ⊢
    rw [hhead]
    refine ⟨rfl, fun img hi => ?_⟩
    rcases List.mem_cons.mp hi with rfl | hi
    · exact ⟨hf.2, _, hf.1, fun e he => (compact_storable hst e he).2⟩
    · exact hall img hi

/-- A valid call fails for lack of space exactly when the records of the keys live
after it would not fit, which never happens when a key is removed. The compaction
image stays in bounds at every step, and a refused call changes nothing. -/
theorem flashKv_enospc_iff (s : Sector) (w : WriteCall) :
    (w.Valid → ((exec w.prog s).1 = .error .enospc ↔
      4096 < liveSize ((readMap s).apply (.write w)).lookup)) ∧
    (∀ img ∈ imageTrace s, img.InBounds ∧ (imagePut img w.key w.value).2.InBounds) ∧
    ((exec w.prog s).1 = .error .enospc ∨ (exec w.prog s).1 = .error .einval →
      (exec w.prog s).2 = s) ∧
    ∀ key, (exec (flashKvEraseKey key) s).1 ≠ .error .enospc := by
  refine ⟨fun hw => ?_, fun img hi => ?_, fun hr => ?_, fun key => ?_⟩
  · have hsmall := liveSize_kvMap_le s
    rw [lookup_apply hw, exec_write hw]
    split_ifs with hsame hfit
    · rw [newMap, ← hsame, Function.update_eq_self]
      simp only [false_iff]
      omega
    · simp only [false_iff]
      omega
    · simp only [true_iff]
      omega
  · rw [imageTrace, exec_walk] at hi
    have hle := log_stop_le s
    have hstop := log_stop_eq s
    obtain ⟨ho, t, ht, hshort⟩ := (imageTrace_holds (log s).records
      (chain_storable (chain_log s)) (by omega)).2 img hi
    exact ⟨ht.inBounds ho, (imagePut_spec ht hshort w.key w.value).2.1 ho⟩
  · by_cases hw : w.Valid
    · rw [exec_write hw] at hr ⊢
      split_ifs at hr ⊢ <;> first | rfl | simp at hr
    · rw [exec_write_invalid hw]
  · change (exec (WriteCall.eraseKey key).prog s).1 ≠ .error .enospc
    by_cases hw : (WriteCall.eraseKey key).Valid
    · have hfit : liveSize (newMap s (.eraseKey key)) ≤ 4096 := liveSize_erase_le hw s
      rw [exec_write hw, if_pos hfit]
      split_ifs <;> simp
    · rw [exec_write_invalid hw]
      simp

/-! ## Validity -/

theorem chain_off_mod {s : Sector} {rs : List Record} {off stop : ℕ} (h : Chain s off rs stop)
    (hoff : off % 4 = 0) : ∀ r ∈ rs, r.off % 4 = 0 := by
  induction rs generalizing off with
  | nil => simp
  | cons q rs ih =>
    have hq := recordSize_mod q.value.length
    intro r hr
    rcases List.mem_cons.mp hr with rfl | hr
    · rw [h.1]; exact hoff
    · exact ih h.2.2 (by omega) r hr

/-- The sector is a valid store that holds exactly the records `rs`: the header is
right, the records follow each other from offset 8 to `stop` at aligned offsets, each
with a matching checksum, everything behind them is erased, and a walk reports them. -/
structure HoldsExactly (s : Sector) (rs : List Record) (stop : ℕ) : Prop where
  state : (exec flashKvState s).1 = .valid
  header : slice s.bytes 0 8 = encodeHeader
  chain : Chain s 8 rs stop
  aligned : ∀ r ∈ rs, r.off % 4 = 0
  tail : s.bytes.drop stop = blank (4096 - stop)
  walk : ∀ (β : Type) (visit : β → Record → β) (ctx : β),
    (exec (walk visit ctx) s).1 = (true, rs.foldl visit ctx, stop)

theorem holdsExactly_of_valid {s : Sector} (h : stateOf s = .valid) :
    HoldsExactly s (log s).records (log s).stop := by
  obtain ⟨hh, hc, ht⟩ := (stateOf_valid_iff s).mp h
  refine ⟨by rw [exec_flashKvState, h], encodeHeader_of_headerOf hh, chain_log s,
    chain_off_mod (chain_log s) rfl, ht, fun β visit ctx => ?_⟩
  rw [exec_walk, hc]

theorem stateOf_write {s : Sector} (h : stateOf s = .valid) (w : WriteCall) :
    stateOf (exec w.prog s).2 = .valid := by
  by_cases hw : w.Valid
  · rw [exec_write hw]
    split_ifs with hsame hfit
    · exact h
    · exact (written_valid hw.storable hfit).1
    · exact h
  · rw [exec_write_invalid hw]
    exact h

/-- Writes keep a valid store valid, in any number. -/
theorem stateOf_runCalls {s : Sector} (h : stateOf s = .valid) (ws : List WriteCall) :
    stateOf (runCalls (ws.map .write) s).2 = .valid := by
  induction ws generalizing s with
  | nil => exact h
  | cons w ws ih => exact ih (stateOf_write h w)

/-- The run of a call programs or erases the sector. -/
def Writes (w : WriteCall) (s : Sector) : Prop :=
  ∃ c ∈ w.prog.calls nor s, c.isQuiet = false

theorem not_writes_of_quiet {α : Type} {m : FlashM α} (hm : Quiet m) (s : Sector) :
    ¬∃ c ∈ m.calls nor s, c.isQuiet = false := by
  rintro ⟨c, hc, hq⟩
  have h := calls_of_only nor hm s c hc
  simp [h] at hq

/-- A call that finds its value in place, or whose arguments are refused, only reads. -/
theorem not_writes_of_check {w : WriteCall} {s : Sector} {r : Except Errno Unit}
    (h : exec w.check s = (some r, s)) : ¬Writes w s := by
  have hcalls : w.prog.calls nor s = w.check.calls nor s := by
    unfold exec at h
    rw [w.prog_eq, calls_bind, h]
    simp [WriteCall.finish]
  rw [Writes, hcalls]
  exact not_writes_of_quiet w.quiet_check s

/-- After a call that wrote and returned 0, from any sector content, the store is valid
and holds exactly the records written; later writes keep it valid. -/
theorem flashKv_valid_after_write (s : Sector) (w : WriteCall) (hwrites : Writes w s)
    (hok : (exec w.prog s).1 = .ok ()) :
    (∃ stop, HoldsExactly (exec w.prog s).2 (writtenRecords s w.key w.value) stop) ∧
      ∀ later : List WriteCall, (exec flashKvState
        (runCalls (later.map .write) (exec w.prog s).2).2).1 = .valid := by
  have hw : w.Valid := by
    by_contra hc
    exact not_writes_of_check (exec_check_invalid hc s) hwrites
  have hne : kvMap s w.key ≠ liveValue w.value := by
    intro hc
    have h := exec_check hw s
    rw [if_pos hc] at h
    exact not_writes_of_check h hwrites
  rw [exec_write hw, if_neg hne] at hok ⊢
  split_ifs at hok ⊢ with hfit
  obtain ⟨hv, hrec⟩ := written_valid hw.storable hfit
  have hh := holdsExactly_of_valid hv
  rw [hrec] at hh
  refine ⟨⟨_, hh⟩, fun later => ?_⟩
  rw [exec_flashKvState]
  exact stateOf_runCalls hv later

/-- One byte stored on a blank sector. -/
theorem flashKv_valid_after_first_write :
    Writes (.set 1 (.bytes [0x41])) Sector.erased ∧
      ∃ stop, HoldsExactly (exec (flashKvSet 1 (.bytes [0x41])) Sector.erased).2
        (writtenRecords Sector.erased 1 [0x41]) stop := by
  have hw : (WriteCall.set 1 (.bytes [0x41])).Valid := by decide
  have hfit : liveSize (newMap Sector.erased (.set 1 (.bytes [0x41]))) ≤ 4096 :=
    fits_of_not_header headerOf_erased hw.storable
  have hrun := exec_write hw Sector.erased
  rw [kvMap_erased, if_neg (by decide), if_pos hfit] at hrun
  have hv := (written_valid hw.storable hfit).1
  have hwrites : Writes (.set 1 (.bytes [0x41])) Sector.erased := by
    apply calls_not_quiet_of_ne
    rw [hrun]
    intro hc
    exact headerOf_erased ((stateOf_valid_iff _).mp (hc ▸ hv)).1
  exact ⟨hwrites, (flashKv_valid_after_write Sector.erased _ hwrites (by rw [hrun])).1⟩

end BekenCam.FlashKv
