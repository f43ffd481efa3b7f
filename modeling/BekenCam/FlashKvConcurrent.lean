import BekenCam.FlashKvRefinement
import BekenCam.TwoTasks

/-!
# Two tasks that store settings at the same time

Nothing serialises the store: two HTTP workers can be inside `flash_kv_set` at once,
each between its own reads and writes. An update is lost when one call has collected
the surviving records before the other call wrote its own, and then erases the sector.
It is not lost as long as two calls that are both under way only read.
-/
namespace BekenCam.FlashKv

open Prog

/-- Two calls on one sector, advanced in the order of the schedule. -/
def interleave (call : Bool → WriteCall) (s : Sector) (sched : List Bool) :
    TwoTasks FlashCmd FlashCmd.Answer (Except Errno Unit) Sector :=
  (TwoTasks.start (fun b => (call b).prog) s).run nor sched

/-- Both calls have returned 0. -/
def BothOk (p : TwoTasks FlashCmd FlashCmd.Answer (Except Errno Unit) Sector) : Prop :=
  ∀ b, (p.task b).rest = ret (.ok ())

/-- Both keys read their new values, and every third key its old one. -/
def NoLostUpdate (call : Bool → WriteCall) (s : Sector)
    (p : TwoTasks FlashCmd FlashCmd.Answer (Except Errno Unit) Sector) : Prop :=
  ∃ m : KvStore, Reads p.device m ∧ (∀ b, m.lookup (call b).key = liveValue (call b).value) ∧
    ∀ k, (∀ b, k ≠ (call b).key) → m.lookup k = (readMap s).lookup k

/-- As long as both calls are under way, they only read: whenever one issues a command,
the other has not begun, or has returned, or has only its read-back left, or neither of
them has programmed or erased anything yet. -/
def OnlyReadTogether (call : Bool → WriteCall) (s : Sector) (sched : List Bool) : Prop :=
  TwoTasks.AllClear nor (fun c => c.isQuiet = true)
    (TwoTasks.start (fun b => (call b).prog) s) sched

/-! ## Calls that stay out of each other's way -/

/-- A put that does not fit only reads. -/
theorem calls_append_of_full {s : Sector} {key : UInt16} {value : List UInt8}
    (hst : Storable (key, value))
    (hfull : ¬liveSize (Function.update (kvMap s) key (liveValue value)) ≤ 4096) :
    ¬∃ c ∈ (append key value).calls nor s, c.isQuiet = false := by
  have hscan := exec_scan s
  obtain ⟨img, himg, hholds, hover⟩ := exec_collectImage s
  have hshort : ∀ e ∈ survivors s, e.2.length ≤ 256 := fun e he => (survivors_storable s e he).2
  obtain ⟨hok, -, -⟩ := imagePut_spec hholds hshort key value
  rw [liveSize_newTable hst] at hfull
  rw [← newTable, decide_eq_false hfull] at hok
  unfold exec at hscan himg
  have hnot : ¬(stateOf s = .valid ∧
      (if headerOf s ≠ .valid then 0 else (log s).stop) + recordSize value.length ≤ 4096) := by
    rintro ⟨hv, hle⟩
    have h1 := tableSize_put_le (survivors s) key value
    have h2 := tableSize_survivors_le s
    have h3 := log_stop_eq s
    rw [if_neg (by simp [((stateOf_valid_iff s).mp hv).1])] at hle
    rw [← newTable] at h1
    omega
  have hcalls : (append key value).calls nor s =
      scan.calls nor s ++ (collectImage (stateOf s)).calls nor s := by
    rw [append, calls_bind, hscan]
    dsimp only
    rw [if_neg hnot, rebuild, calls_bind, himg, if_neg (by simp [hover])]
    dsimp only
    rw [hok, if_pos (by simp), pure_eq_ret, calls_ret, List.append_nil]
  rw [hcalls]
  rintro ⟨c, hc, hq⟩
  rcases List.mem_append.mp hc with hc | hc
  · exact not_writes_of_quiet quiet_scan s ⟨c, hc, hq⟩
  · exact not_writes_of_quiet (quiet_collectImage _) s ⟨c, hc, hq⟩

/-- A call that writes succeeds. -/
theorem ok_of_writes {w : WriteCall} {s : Sector} (h : Writes w s) :
    (exec w.prog s).1 = .ok () := by
  have hw : w.Valid := by
    by_contra hc
    exact not_writes_of_check (exec_check_invalid hc s) h
  have hcheck := exec_check hw s
  rw [exec_write hw]
  split_ifs with hsame hfit
  · rfl
  · rfl
  · rw [if_neg hsame] at hcheck
    obtain ⟨c, hc, hq⟩ := h
    unfold exec at hcheck
    rw [w.prog_eq, calls_bind, hcheck] at hc
    rcases List.mem_append.mp hc with hc | hc
    · exact absurd ⟨c, hc, hq⟩ (not_writes_of_quiet w.quiet_check s)
    · exact absurd ⟨c, hc, hq⟩ (calls_append_of_full hw.storable hfit)

/-- Two calls on different keys that only read while both are under way lose no update. -/
theorem flashKv_no_lost_update (s : Sector) (call : Bool → WriteCall) (sched : List Bool)
    (hkeys : (call false).key ≠ (call true).key) (hclear : OnlyReadTogether call s sched)
    (hok : BothOk (interleave call s sched)) : NoLostUpdate call s (interleave call s sched) := by
  obtain ⟨w, hdev, hlater, hfirst⟩ :=
    TwoTasks.sequential_of_allClear nor_snd_of_isQuiet sched hclear hok
  have hok1 : (exec (call w).prog s).1 = .ok () := by
    rcases hfirst with h | ⟨c, hc, hq⟩
    · exact h.symm
    · exact ok_of_writes ⟨c, hc, by simpa using hq⟩
  have hmap : kvMap (interleave call s sched).device =
      newMap (exec (call w).prog s).2 (call !w) := by
    rw [interleave, hdev]
    exact kvMap_of_ok hlater.symm
  rw [newMap, kvMap_of_ok hok1, newMap] at hmap
  have hne : (call w).key ≠ (call !w).key := by
    cases w
    · exact hkeys
    · exact hkeys.symm
  have hlook : (readMap (interleave call s sched).device).lookup = _ := (readKey_eq _).trans hmap
  refine ⟨readMap (interleave call s sched).device, reads_of_lookup (readKey_eq _), fun b => ?_,
    fun k hk => ?_⟩
  · rw [hlook]
    rcases eq_or_ne b w with rfl | hb
    · rw [Function.update_of_ne hne, Function.update_self]
    · rw [show b = !w by cases b <;> cases w <;> simp_all, Function.update_self]
  · rw [hlook, Function.update_of_ne (hk _), Function.update_of_ne (hk _)]
    exact (congrFun (readKey_eq s) k).symm

/-- One call after the other is one of the orders allowed. -/
theorem exists_serial {call : Bool → WriteCall} {s : Sector}
    (hfirst : (exec (call false).prog s).1 = .ok ())
    (hsecond : (exec (call true).prog (exec (call false).prog s).2).1 = .ok ()) :
    ∃ sched, OnlyReadTogether call s sched ∧ BothOk (interleave call s sched) := by
  obtain ⟨h1, h2, -⟩ := TwoTasks.run_finishBoth nor (TwoTasks.start (fun b => (call b).prog) s)
  refine ⟨_, TwoTasks.allClear_finishBoth _ _, fun b => ?_⟩
  cases b with
  | false => exact h1.trans (congrArg ret hfirst)
  | true => exact h2.trans (congrArg ret hsecond)

/-- So is a call that only reads, between the reads and the writes of the other one. -/
theorem overlapping_reads {call : Bool → WriteCall} {s : Sector}
    (hfirst : exec (call false).prog s = (.ok (), s)) (hquiet : ¬Writes (call false) s)
    (hsecond : (exec (call true).prog s).1 = .ok ()) :
    let sched := TwoTasks.overlapping nor (fun b => (call b).prog) (call true).check
      (WriteCall.finish (call true).key (call true).value) s
    OnlyReadTogether call s sched ∧ BothOk (interleave call s sched) := by
  have hcheck := run_snd_of_only nor_snd_of_isQuiet (call true).quiet_check s
  unfold exec at hfirst
  rw [(call true).prog_eq, exec, run_bind, hcheck] at hsecond
  obtain ⟨hclear, hret, hret'⟩ := TwoTasks.allClear_overlapping
    (P := fun c : FlashCmd => c.isQuiet = true) (m := fun b => (call b).prog) nor_snd_of_isQuiet
    (call true).prog_eq (call true).quiet_check
    fun c hc => by simpa using fun hw => hquiet ⟨c, hc, hw⟩
  refine ⟨hclear, fun b => ?_⟩
  cases b with
  | false => exact hret.trans (congrArg (fun r => ret r.1) hfirst)
  | true =>
    refine hret'.trans ?_
    rw [hfirst]
    exact congrArg ret hsecond

/-- One byte under each of two keys. -/
def twoSettings (b : Bool) : WriteCall := if b then .set 2 (.bytes [0x42]) else .set 1 (.bytes [0x41])

theorem twoSettings_valid (b : Bool) : (twoSettings b).Valid := by
  revert b
  decide

/-- Two small records fit behind any few that are there. -/
theorem exec_twoSettings {s : Sector} (hs : liveSize (kvMap s) ≤ 1024) (b : Bool) :
    (exec (twoSettings b).prog s).1 = .ok () := by
  have hw := twoSettings_valid b
  have hle := liveSize_update_le (s := s) hw.storable
  have hr : recordSize (twoSettings b).value.length ≤ 264 := recordSize_le hw.storable.2
  have hfit : liveSize (newMap s (twoSettings b)) ≤ 4096 := by
    rw [newMap]
    omega
  rw [exec_write hw, if_pos hfit]
  split_ifs <;> rfl

theorem liveSize_erased : liveSize (kvMap Sector.erased) = 8 := by
  rw [liveSize_kvMap, survivors, if_neg headerOf_erased, tableSize_nil]

/-- The first call finds its value in place and has nothing to write. -/
theorem exec_twoSettings_oneSetting :
    exec (twoSettings false).prog oneSetting = (.ok (), oneSetting) ∧
      ¬Writes (twoSettings false) oneSetting := by
  have hsame : kvMap oneSetting (twoSettings false).key = liveValue (twoSettings false).value := by
    rw [kvMap_oneSetting]
    rfl
  have hcheck := exec_check (twoSettings_valid false) oneSetting
  rw [if_pos hsame] at hcheck
  refine ⟨?_, not_writes_of_check hcheck⟩
  rw [exec_write (twoSettings_valid false), if_pos hsame]

theorem calls_pos {α : Type} {m : FlashM α} (hm : ∃ c k, m = call c k) (s : Sector) :
    0 < (calls nor m s).length := by
  obtain ⟨c, k, rfl⟩ := hm
  exact Nat.succ_pos _

/-- One call after the other on a blank sector; and on a store that has the first value, the second
call reads, the first one finds its value in place, and the second goes on. -/
theorem flashKv_no_lost_update_orders :
    (∃ sched, OnlyReadTogether twoSettings Sector.erased sched ∧
      BothOk (interleave twoSettings Sector.erased sched) ∧
      NoLostUpdate twoSettings Sector.erased (interleave twoSettings Sector.erased sched)) ∧
    ∃ n n' n'', 0 < n ∧ 0 < n' ∧ 0 < n'' ∧
      let sched := List.replicate n true ++ (List.replicate n' false ++ List.replicate n'' true)
      OnlyReadTogether twoSettings oneSetting sched ∧
        BothOk (interleave twoSettings oneSetting sched) ∧
        NoLostUpdate twoSettings oneSetting (interleave twoSettings oneSetting sched) := by
  constructor
  · have hempty := liveSize_erased
    have hfirst := exec_twoSettings (s := Sector.erased) (by omega) false
    have hput := liveSize_update_le (s := Sector.erased) (twoSettings_valid false).storable
    have hrecord : recordSize (twoSettings false).value.length ≤ 264 :=
      recordSize_le (twoSettings_valid false).storable.2
    have hsecond := exec_twoSettings (s := (exec (twoSettings false).prog Sector.erased).2)
      (by rw [kvMap_of_ok hfirst, newMap]; omega) true
    obtain ⟨sched, hclear, hok⟩ := exists_serial hfirst hsecond
    exact ⟨sched, hclear, hok, flashKv_no_lost_update _ _ _ (by decide) hclear hok⟩
  · obtain ⟨hsame, hquiet⟩ := exec_twoSettings_oneSetting
    have hsmall : liveSize (kvMap oneSetting) ≤ 1024 := by
      have hstop := oneSetting_valid.2
      have hsum := log_stop_eq oneSetting
      have hle := tableSize_survivors_le oneSetting
      rw [liveSize_kvMap]
      omega
    obtain ⟨hclear, hok⟩ := overlapping_reads hsame hquiet (exec_twoSettings hsmall true)
    refine ⟨_, _, _, ?_, ?_, ?_, hclear, hok,
      flashKv_no_lost_update _ _ _ (by decide) hclear hok⟩
    · exact calls_pos ⟨_, _, rfl⟩ _
    · exact calls_pos ⟨_, _, rfl⟩ _
    · have hdiffers : kvMap oneSetting (twoSettings true).key ≠
          liveValue (twoSettings true).value := by
        rw [kvMap_oneSetting]
        decide
      have hcheck := exec_check (twoSettings_valid true) oneSetting
      rw [if_neg hdiffers] at hcheck
      unfold exec at hcheck
      rw [hcheck]
      exact calls_pos ⟨_, _, rfl⟩ _

/-! ## How an update is lost -/

theorem newTable_of_not_header {s : Sector} {key : UInt16} {value : List UInt8}
    (hs : headerOf s ≠ .valid) (hv : value ≠ []) : newTable s key value = [(key, value)] := by
  rw [newTable, survivors, if_neg hs, put_liveValue hv]
  rfl

/-- On a sector without a store, a call can be stopped right before its erase; from there
it writes its own record and nothing else, whatever the sector holds by then. -/
theorem exists_before_erase {w : WriteCall} (hw : w.Valid) (hv : w.value ≠ [])
    (p : TwoTasks FlashCmd FlashCmd.Answer (Except Errno Unit) Sector) (who : Bool)
    (hp : (p.task who).rest = w.prog) (hs : headerOf p.device ≠ .valid) :
    ∃ m, TwoTasks.CanReach nor p who m ∧
      ∀ d, exec m d = (.ok (), imageSector [(w.key, w.value)]) := by
  have hfit : 8 + tableSize [(w.key, w.value)] ≤ 4096 := by
    have h := recordSize_le hw.storable.2
    rw [tableSize_cons, tableSize_nil]
    omega
  have hstate : stateOf p.device ≠ .valid := fun h => hs ((stateOf_valid_iff _).mp h).1
  have hcheck := exec_check hw p.device
  have hscan := exec_scan p.device
  obtain ⟨img, himg, hholds, hover⟩ := exec_collectImage p.device
  have hshort : ∀ e ∈ survivors p.device, e.2.length ≤ 256 :=
    fun e he => (survivors_storable p.device e he).2
  obtain ⟨hok, -, hres⟩ := imagePut_spec hholds hshort w.key w.value
  rw [← newTable, newTable_of_not_header hs hv] at hok hres
  rw [kvMap_of_not_header hs, liveValue, if_neg hv, if_neg (by simp)] at hcheck
  unfold exec at hcheck hscan himg
  have h1 : TwoTasks.CanReach nor p who (w.check >>= WriteCall.finish w.key w.value) :=
    .start (hp.trans w.prog_eq)
  have h2 : TwoTasks.CanReach nor p who (append w.key w.value) := h1.bind hcheck
  have h3 := h2.bind hscan
  dsimp only at h3
  rw [if_neg fun h => hstate h.1] at h3
  have h4 := h3.bind himg
  rw [if_neg (by simp [hover])] at h4
  dsimp only at h4
  rw [hok, decide_eq_true hfit, if_neg (by simp), (hres hfit).take] at h4
  refine ⟨_, h4, fun d => ?_⟩
  rw [exec_flashEraseSector_bind, erased_eq_padded]
  exact exec_writeVerified [] _ (by simpa using hfit)

/-- On a sector without a store, the second call collects what survives before the first
one runs, and erases what the first one wrote. -/
theorem exists_lost_update {s : Sector} (call : Bool → WriteCall) (hs : headerOf s ≠ .valid)
    (hw : ∀ b, (call b).Valid) (hv : ∀ b, (call b).value ≠ []) :
    ∃ sched, BothOk (interleave call s sched) ∧
      (interleave call s sched).device = imageSector [((call true).key, (call true).value)] := by
  obtain ⟨m, hreach, hm⟩ := exists_before_erase (hw true) (hv true)
    (TwoTasks.start (fun b => (call b).prog) s) true rfl hs
  obtain ⟨sched, h1, h2, h3⟩ := TwoTasks.run_overtaken hreach
  have hfit : liveSize (newMap s (call false)) ≤ 4096 := fits_of_not_header hs (hw false).storable
  have hfirst : (exec (call false).prog s).1 = .ok () := by
    rw [exec_write (hw false), if_pos hfit]
    split_ifs <;> rfl
  have hm' := hm (exec (call false).prog s).2
  refine ⟨sched, fun b => ?_, h3.trans (congrArg Prod.snd hm')⟩
  cases b with
  | false => exact h1.trans (congrArg ret hfirst)
  | true => exact h2.trans (congrArg (fun r => ret r.1) hm')

/-- Both calls return 0, and the first key is gone. -/
theorem flashKv_lost_update : ∃ sched,
    BothOk (interleave twoSettings Sector.erased sched) ∧
      ¬NoLostUpdate twoSettings Sector.erased (interleave twoSettings Sector.erased sched) := by
  obtain ⟨sched, hok, hdev⟩ := exists_lost_update twoSettings headerOf_erased
    (by decide) (by decide)
  refine ⟨sched, hok, ?_⟩
  rintro ⟨m, hreads, hnew, -⟩
  have hread := hreads 1 (by decide) false 0 0
  rw [hdev, exec_flashKvGet (by decide), kvMap_imageSector (by decide) (by decide)] at hread
  have hkey : m.lookup 1 = some [0x41] := hnew false
  rw [hkey] at hread
  exact absurd (congrArg Prod.fst hread) (by decide)

end BekenCam.FlashKv
