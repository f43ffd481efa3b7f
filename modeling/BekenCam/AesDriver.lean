import BekenCam.ShaSessions
import BekenCam.Wpa2Aes

/-!
# The cipher engine and its driver

`aes.c`. The key is loaded when a context is created, and the engine holds one key; `aes_update`
looks at no context. The buffers are areas of one memory and may overlap.
-/
namespace BekenCam.Security

/-! ## Registers -/

/-- `AES_MODE` -/
inductive AesMode
  | aes128 | aes256 | aes192
  deriving DecidableEq, Repr

/-- `aes_key_bytes` -/
def AesMode.keyBytes : AesMode → ℕ
  | aes128 => 16
  | aes192 => 24
  | aes256 => 32

def aesBlockSize : ℕ := 16

/-- What `engine_init` writes, and the block last taken in. -/
structure AesRegs where
  key : List UInt32
  encode : Bool
  mode : AesMode
  block : List UInt32
  key_size : key.length = 8

/-- INIT derives a key schedule that stays in the engine; NEXT takes a block to its result. -/
structure AesEngine (σ : Type) where
  init : AesRegs → σ
  next : σ → List UInt32 → Vector UInt32 4

/-- `aes_context_t`; of `key` only as many bytes are used as the mode says. -/
structure AesContext where
  mode : AesMode
  encode : Bool
  key : List UInt8

def AesContext.keyWords (c : AesContext) : List UInt32 := blockWords (c.mode.keyBytes / 4) c.key

/-- The registers `engine_init` starts the engine with; it leaves the other words of the key. -/
def AesRegs.load (r : AesRegs) (c : AesContext) : AesRegs where
  key := writeAt r.key 0 c.keyWords
  encode := c.encode
  mode := c.mode
  block := r.block
  key_size := by
    rw [length_writeAt_of_le, r.key_size]
    rw [AesContext.keyWords, length_blockWords, r.key_size]
    cases c.mode <;> decide

/-! ## The driver -/

structure AesSystem (σ : Type) where
  regs : AesRegs
  schedule : σ
  contexts : ℕ → Option AesContext
  mem : List UInt8

/-- A call; a context is named by where it lies, a buffer by where it starts. -/
inductive AesCall
  | create (h : ℕ) (c : AesContext)
  | update (h input output length : ℕ)
  | destroy (h : ℕ)

namespace AesSystem

variable {σ : Type} (engine : AesEngine σ)

/-- `process_block` -/
def processBlock (s : AesSystem σ) (input output : ℕ) : AesSystem σ :=
  let block := blockWords 4 (slice s.mem input aesBlockSize)
  let result := engine.next s.schedule block
  { s with
    regs := { s.regs with block := block }
    mem := writeAt s.mem output (result.toList.flatMap storeBe32) }

/-- The loop of `aes_update`. -/
def processBlocks (s : AesSystem σ) (input output blocks : ℕ) : AesSystem σ :=
  (List.range blocks).foldl
    (fun s i => s.processBlock engine (input + i * aesBlockSize) (output + i * aesBlockSize)) s

/-- `aes_update` -/
def aesUpdate (s : AesSystem σ) (input output length : ℕ) : AesSystem σ × ℤ :=
  if length % aesBlockSize ≠ 0 then (s, -1)
  else (s.processBlocks engine input output (length / aesBlockSize), 0)

/-- `aes_create_context`, where there is memory for the context. -/
def aesCreateContext (s : AesSystem σ) (h : ℕ) (c : AesContext) : AesSystem σ :=
  { s with
    regs := s.regs.load c
    schedule := engine.init (s.regs.load c)
    contexts := Function.update s.contexts h (some c) }

def aesDestroyContext (s : AesSystem σ) (h : ℕ) : AesSystem σ :=
  { s with contexts := Function.update s.contexts h none }

/-- `aes_oneshot`; `h` is where there is memory for the context. -/
def aesOneshot (s : AesSystem σ) (h : Option ℕ) (c : AesContext) (input output length : ℕ) :
    AesSystem σ × ℤ :=
  if length % aesBlockSize ≠ 0 then (s, -1)
  else
    match h with
    | none => (s, -1)
    | some h =>
      let done := (s.aesCreateContext engine h c).aesUpdate engine input output length
      (done.1.aesDestroyContext h, done.2)

/-- A call returns: the buffers lie in the memory, a key is as long as its mode says. -/
def step (s : AesSystem σ) : AesCall → Option (AesSystem σ)
  | .create h c =>
    if (s.contexts h).isNone ∧ c.mode.keyBytes ≤ c.key.length then some (s.aesCreateContext engine h c)
    else none
  | .update h input output length =>
    if (s.contexts h).isSome ∧ input + length ≤ s.mem.length ∧ output + length ≤ s.mem.length then
      some (s.aesUpdate engine input output length).1
    else none
  | .destroy h => if (s.contexts h).isSome then some (s.aesDestroyContext h) else none

theorem length_result (result : Vector UInt32 4) :
    (result.toList.flatMap storeBe32).length = aesBlockSize := by
  rw [List.length_flatMap, List.map_congr_left fun w _ => show (storeBe32 w).length = 4 from rfl,
    List.map_const', List.sum_replicate, Vector.length_toList]
  rfl

@[simp] theorem processBlock_schedule (s : AesSystem σ) (input output : ℕ) :
    (s.processBlock engine input output).schedule = s.schedule := rfl

@[simp] theorem processBlocks_schedule (s : AesSystem σ) (input output blocks : ℕ) :
    (s.processBlocks engine input output blocks).schedule = s.schedule := by
  induction blocks with
  | zero => rfl
  | succ n ih =>
    rw [processBlocks, List.range_succ, List.foldl_append]
    exact ih

@[simp] theorem aesUpdate_schedule (s : AesSystem σ) (input output length : ℕ) :
    (s.aesUpdate engine input output length).1.schedule = s.schedule := by
  rw [aesUpdate]
  split_ifs
  · rfl
  · exact processBlocks_schedule ..

end AesSystem

/-! ## What the engine computes -/

/-- A cipher for each key length, direction, key and block. -/
abbrev BlockCipher : Type := AesMode → Bool → List UInt8 → List UInt8 → List UInt8

/-- Every block by itself. -/
def ecb (f : List UInt8 → List UInt8) (bytes : List UInt8) : List UInt8 :=
  (BlockHash.blocks aesBlockSize bytes).flatMap f

variable {σ : Type} {engine : AesEngine σ} {cipher : BlockCipher}

/-- What INIT was given decides what NEXT does, until the next INIT. -/
structure AesEngine.Computes (engine : AesEngine σ) (cipher : BlockCipher) : Prop where
  next : ∀ r block, block.length = 4 → (engine.next (engine.init r) block).toList.flatMap storeBe32 =
    cipher r.mode r.encode ((r.key.flatMap storeBe32).take r.mode.keyBytes)
      (block.flatMap storeBe32)
  size : ∀ mode encode key block, (cipher mode encode key block).length = aesBlockSize

/-- The engine holds the key of this context. -/
def AesSystem.Loaded (engine : AesEngine σ) (s : AesSystem σ) (c : AesContext) : Prop :=
  ∃ r, s.schedule = engine.init (AesRegs.load r c)

theorem keyBytes_words (mode : AesMode) : mode.keyBytes / 4 * 4 = mode.keyBytes := by
  cases mode <;> rfl

/-- The words an earlier, longer key left behind are not used. -/
theorem take_load_key (r : AesRegs) {c : AesContext} (hkey : c.mode.keyBytes ≤ c.key.length) :
    ((r.load c).key.flatMap storeBe32).take c.mode.keyBytes = c.key.take c.mode.keyBytes := by
  have hwords : c.keyWords.flatMap storeBe32 = c.key.take c.mode.keyBytes := by
    rw [AesContext.keyWords, flatMap_blockWords (by rwa [keyBytes_words]), keyBytes_words]
  have hload : (r.load c).key = c.keyWords ++ r.key.drop c.keyWords.length := writeAt_front ..
  rw [hload, List.flatMap_append, hwords]
  exact List.take_left' (by rw [List.length_take]; omega)

/-- What an update does to a block once a context's key is loaded. -/
def AesContext.transform (cipher : BlockCipher) (c : AesContext) : List UInt8 → List UInt8 :=
  cipher c.mode c.encode (c.key.take c.mode.keyBytes)

namespace AesSystem

theorem processBlock_mem (he : engine.Computes cipher) {s : AesSystem σ} {c : AesContext}
    (hkey : c.mode.keyBytes ≤ c.key.length) (hs : s.Loaded engine c) {input output : ℕ}
    (hin : input + aesBlockSize ≤ s.mem.length) :
    (s.processBlock engine input output).mem =
      writeAt s.mem output (c.transform cipher (slice s.mem input aesBlockSize)) := by
  obtain ⟨r, hr⟩ := hs
  have hslice : (slice s.mem input aesBlockSize).length = 4 * 4 := length_slice_of_le hin
  have hnext := he.next (r.load c) (blockWords 4 (slice s.mem input aesBlockSize))
    (length_blockWords ..)
  rw [← hr, flatMap_blockWords (Nat.le_of_eq hslice.symm), ← hslice, List.take_length] at hnext
  have hkeyed : (engine.next s.schedule
      (blockWords 4 (slice s.mem input aesBlockSize))).toList.flatMap storeBe32 =
        c.transform cipher (slice s.mem input aesBlockSize) := by
    rw [hnext, AesContext.transform, ← take_load_key r hkey]
    rfl
  exact congrArg (writeAt s.mem output) hkeyed

theorem length_transform (he : engine.Computes cipher) (c : AesContext) (block : List UInt8) :
    (c.transform cipher block).length = aesBlockSize := he.size ..

end AesSystem

theorem blocks_succ {size n : ℕ} (hsize : 0 < size) {l : List UInt8} {input : ℕ}
    (h : input + (n + 1) * size ≤ l.length) :
    BlockHash.blocks size (slice l input ((n + 1) * size)) =
      BlockHash.blocks size (slice l input (n * size)) ++ [slice l (input + n * size) size] := by
  have hcount : ∀ k, input + k * size ≤ l.length → BlockHash.blocks size (slice l input (k * size)) =
      (List.range k).map fun i => slice l (input + size * i) size := by
    intro k hk
    rw [BlockHash.blocks, length_slice_of_le hk, Nat.mul_div_cancel _ hsize]
    refine List.map_congr_left fun i hi => ?_
    have hlt : (i + 1) * size ≤ k * size := Nat.mul_le_mul_right size (List.mem_range.mp hi)
    rw [Nat.succ_mul, Nat.mul_comm] at hlt
    rw [slice, slice, slice, List.drop_take, List.take_take, List.drop_drop]
    congr 1
    omega
  rw [hcount _ h, hcount n (by rw [Nat.succ_mul] at h; omega), List.range_succ, List.map_append,
    List.map_singleton, Nat.mul_comm size n]

theorem length_ecb {f : List UInt8 → List UInt8} (hf : ∀ b, (f b).length = aesBlockSize)
    (bytes : List UInt8) :
    (ecb f bytes).length = bytes.length / aesBlockSize * aesBlockSize := by
  rw [ecb, List.length_flatMap, List.map_congr_left fun b _ => hf b, List.map_const',
    List.sum_replicate, BlockHash.blocks, List.length_map, List.length_range, smul_eq_mul]

theorem ecb_ecb {f g : List UInt8 → List UInt8} (hf : ∀ b, (f b).length = aesBlockSize)
    (hinverse : ∀ b : List UInt8, b.length = aesBlockSize → g (f b) = b) {bytes : List UInt8}
    (h : bytes.length % aesBlockSize = 0) : ecb g (ecb f bytes) = bytes := by
  have hblocks : BlockHash.blocks aesBlockSize (ecb f bytes) =
      (BlockHash.blocks aesBlockSize bytes).map f := by
    rw [ecb, List.flatMap_def]
    refine BlockHash.blocks_flatten (by decide) fun b hb => ?_
    obtain ⟨b', -, rfl⟩ := List.mem_map.mp hb
    exact hf b'
  rw [ecb, hblocks, List.flatMap_map, List.flatMap_def,
    List.map_congr_left fun b hb => hinverse b (BlockHash.length_of_mem_blocks hb), List.map_id',
    BlockHash.flatten_blocks _ h]

/-- Two buffers a block can be taken from and put to in turn. -/
def Compatible (input output length : ℕ) : Prop := output ≤ input ∨ input + length ≤ output

namespace AesSystem

/-- The loop writes what the whole input becomes, also over the input. -/
theorem processBlocks_mem (he : engine.Computes cipher) {s : AesSystem σ} {c : AesContext}
    (hkey : c.mode.keyBytes ≤ c.key.length) (hs : s.Loaded engine c) {input output n : ℕ}
    (hin : input + n * aesBlockSize ≤ s.mem.length)
    (hout : output + n * aesBlockSize ≤ s.mem.length)
    (hoverlap : Compatible input output (n * aesBlockSize)) :
    (s.processBlocks engine input output n).mem =
      writeAt s.mem output (ecb (c.transform cipher) (slice s.mem input (n * aesBlockSize))) := by
  have hlength : ∀ k, input + k * aesBlockSize ≤ s.mem.length →
      (ecb (c.transform cipher) (slice s.mem input (k * aesBlockSize))).length =
        k * aesBlockSize := by
    intro k hk
    rw [length_ecb (length_transform he c), length_slice_of_le hk, Nat.mul_div_cancel _ (by decide)]
  have hprefix : ∀ k ≤ n, (s.processBlocks engine input output k).mem =
      writeAt s.mem output (ecb (c.transform cipher) (slice s.mem input (k * aesBlockSize))) := by
    intro k hk
    induction k with
    | zero => simp [processBlocks, ecb, BlockHash.blocks, writeAt]
    | succ k ih =>
      have hbefore := ih (Nat.le_of_succ_le hk)
      have hmul : (k + 1) * aesBlockSize ≤ n * aesBlockSize := Nat.mul_le_mul_right _ hk
      rw [Nat.succ_mul] at hmul
      have hk' := hlength k (by omega)
      have hloaded : (s.processBlocks engine input output k).Loaded engine c := by
        obtain ⟨r, hr⟩ := hs
        exact ⟨r, (processBlocks_schedule ..).trans hr⟩
      have hmem : (s.processBlocks engine input output k).mem.length = s.mem.length := by
        rw [hbefore, length_writeAt_of_le (by omega)]
      -- The blocks written so far lie outside the block that is read next.
      have hread : slice (s.processBlocks engine input output k).mem (input + k * aesBlockSize)
          aesBlockSize = slice s.mem (input + k * aesBlockSize) aesBlockSize := by
        rw [hbefore]
        rcases hoverlap with hle | hbehind
        · exact congrArg (List.take aesBlockSize) (drop_writeAt (by rw [hk']; omega) (by omega))
        · exact slice_congr (take_writeAt (by omega)) (by omega)
      have hstep : s.processBlocks engine input output (k + 1) =
          (s.processBlocks engine input output k).processBlock engine (input + k * aesBlockSize)
            (output + k * aesBlockSize) := by
        rw [processBlocks, List.range_succ, List.foldl_append]
        rfl
      have hblocks := blocks_succ (n := k) (show 0 < aesBlockSize by decide) (l := s.mem)
        (show input + (k + 1) * aesBlockSize ≤ s.mem.length by rw [Nat.succ_mul]; omega)
      have hjoin := writeAt_writeAt (l := s.mem)
        (a := ecb (c.transform cipher) (slice s.mem input (k * aesBlockSize)))
        (b := c.transform cipher (slice s.mem (input + k * aesBlockSize) aesBlockSize))
        (show output ≤ s.mem.length by omega)
      rw [hk'] at hjoin
      rw [hstep, processBlock_mem he hkey hloaded (by omega), hread, hbefore, hjoin]
      congr 1
      rw [ecb, ecb, hblocks, List.flatMap_append, List.flatMap_singleton]
  exact hprefix n le_rfl

theorem aesUpdate_mem (he : engine.Computes cipher) {s : AesSystem σ} {c : AesContext}
    (hkey : c.mode.keyBytes ≤ c.key.length) (hs : s.Loaded engine c) {input output length : ℕ}
    (hlength : length % aesBlockSize = 0) (hin : input + length ≤ s.mem.length)
    (hout : output + length ≤ s.mem.length) (hoverlap : Compatible input output length) :
    (s.aesUpdate engine input output length).1.mem =
      writeAt s.mem output (ecb (c.transform cipher) (slice s.mem input length)) := by
  have hwhole : length / aesBlockSize * aesBlockSize = length :=
    Nat.div_mul_cancel (Nat.dvd_of_mod_eq_zero hlength)
  have hmem : (s.processBlocks engine input output (length / aesBlockSize)).mem =
      writeAt s.mem output (ecb (c.transform cipher)
        (slice s.mem input (length / aesBlockSize * aesBlockSize))) :=
    processBlocks_mem he hkey hs (by rwa [hwhole]) (by rwa [hwhole]) (by rwa [hwhole])
  rw [hwhole] at hmem
  rw [aesUpdate, if_neg (not_not_intro hlength)]
  exact hmem

/-- A call that fails leaves the output as it is. -/
theorem aesOneshot_mem (he : engine.Computes cipher) (s : AesSystem σ) {c : AesContext}
    (hkey : c.mode.keyBytes ≤ c.key.length) {h : Option ℕ} {input output length : ℕ}
    (hin : input + length ≤ s.mem.length) (hout : output + length ≤ s.mem.length)
    (hoverlap : Compatible input output length) :
    ((s.aesOneshot engine h c input output length).2 = 0 ↔
        length % aesBlockSize = 0 ∧ h ≠ none) ∧
      (s.aesOneshot engine h c input output length).1.mem =
        if length % aesBlockSize = 0 ∧ h ≠ none then
          writeAt s.mem output (ecb (c.transform cipher) (slice s.mem input length))
        else s.mem := by
  unfold aesOneshot
  by_cases hlength : length % aesBlockSize = 0
  · rw [if_neg (not_not_intro hlength)]
    cases h with
    | none => simp
    | some h =>
      have hmem := aesUpdate_mem he (s := s.aesCreateContext engine h c) hkey ⟨s.regs, rfl⟩ hlength
        hin hout hoverlap
      refine ⟨?_, ?_⟩
      · simp [aesUpdate, hlength]
      · rw [if_pos ⟨hlength, Option.some_ne_none h⟩]
        exact hmem
  · rw [if_pos hlength, if_neg fun hboth => hlength hboth.1]
    simp [hlength]

theorem slice_aesUpdate (he : engine.Computes cipher) {s : AesSystem σ} {c : AesContext}
    (hkey : c.mode.keyBytes ≤ c.key.length) (hs : s.Loaded engine c) {input output length : ℕ}
    (hlength : length % aesBlockSize = 0) (hin : input + length ≤ s.mem.length)
    (hout : output + length ≤ s.mem.length) (hoverlap : Compatible input output length) :
    slice (s.aesUpdate engine input output length).1.mem output length =
      ecb (c.transform cipher) (slice s.mem input length) := by
  have hsize : (ecb (c.transform cipher) (slice s.mem input length)).length = length := by
    rw [length_ecb (length_transform he c), length_slice_of_le hin]
    exact Nat.div_mul_cancel (Nat.dvd_of_mod_eq_zero hlength)
  have hread : slice (writeAt s.mem output (ecb (c.transform cipher) (slice s.mem input length)))
      output (ecb (c.transform cipher) (slice s.mem input length)).length =
      ecb (c.transform cipher) (slice s.mem input length) := slice_writeAt (by omega)
  rwa [hsize, ← aesUpdate_mem he hkey hs hlength hin hout hoverlap] at hread

end AesSystem

/-! ## Runs -/

/-- The key a call loads. -/
def AesCall.loads : AesCall → Option AesContext
  | create _ c => some c
  | _ => none

/-- The context created last. -/
def lastCreated (calls : List AesCall) : Option AesContext := (calls.filterMap AesCall.loads).getLast?

/-- The call puts nothing there. -/
def AesCall.Spares (at' n : ℕ) : AesCall → Prop
  | update _ _ output length => output + length ≤ at' ∨ at' + n ≤ output
  | _ => True

theorem lastCreated_concat (calls : List AesCall) (call : AesCall) :
    lastCreated (calls ++ [call]) = call.loads.or (lastCreated calls) := by
  rw [lastCreated, List.filterMap_append, List.getLast?_append]
  cases h : call.loads <;> simp [h, lastCreated]

namespace AesSystem

/-- The engine holds the key of the context created last, whoever is called. -/
theorem loaded_run {s s' : AesSystem σ} {calls : List AesCall} {c : AesContext}
    (hrun : runSteps (step engine) s calls = some s') (hlast : lastCreated calls = some c) :
    s'.Loaded engine c ∧ c.mode.keyBytes ≤ c.key.length := by
  refine invariant_of_history (fun pre s => ∀ c, lastCreated pre = some c →
    s.Loaded engine c ∧ c.mode.keyBytes ≤ c.key.length) (by rintro c ⟨⟩) ?_ hrun c hlast
  intro pre call s s' _ hs hstep c hc
  rw [lastCreated_concat] at hc
  cases call with
  | create h c' =>
    obtain rfl := Option.some.inj hc
    simp only [step] at hstep
    split_ifs at hstep with hok
    obtain rfl := Option.some.inj hstep
    exact ⟨⟨s.regs, rfl⟩, hok.2⟩
  | update h input output length =>
    obtain ⟨⟨r, hr⟩, hkey⟩ := hs c hc
    simp only [step] at hstep
    split_ifs at hstep
    obtain rfl := Option.some.inj hstep
    exact ⟨⟨r, (aesUpdate_schedule ..).trans hr⟩, hkey⟩
  | destroy h =>
    obtain ⟨⟨r, hr⟩, hkey⟩ := hs c hc
    simp only [step] at hstep
    split_ifs at hstep
    obtain rfl := Option.some.inj hstep
    exact ⟨⟨r, hr⟩, hkey⟩

/-- An area that no output reaches keeps its bytes. -/
theorem slice_processBlock {s : AesSystem σ} {input output at' n : ℕ}
    (hout : output + aesBlockSize ≤ s.mem.length)
    (h : output + aesBlockSize ≤ at' ∨ at' + n ≤ output) (hat : at' + n ≤ s.mem.length) :
    slice (s.processBlock engine input output).mem at' n = slice s.mem at' n := by
  have hsize := length_result (engine.next s.schedule (blockWords 4 (slice s.mem input aesBlockSize)))
  rcases h with hbefore | hbehind
  · exact congrArg (List.take n) (drop_writeAt (by rwa [hsize]) (by omega))
  · exact slice_congr (take_writeAt (by omega)) hbehind

theorem length_processBlock {s : AesSystem σ} {input output : ℕ}
    (hout : output + aesBlockSize ≤ s.mem.length) :
    (s.processBlock engine input output).mem.length = s.mem.length := by
  have hsize := length_result (engine.next s.schedule (blockWords 4 (slice s.mem input aesBlockSize)))
  exact length_writeAt_of_le (by rwa [hsize])

theorem slice_processBlocks {s : AesSystem σ} {input output at' n blocks : ℕ}
    (hout : output + blocks * aesBlockSize ≤ s.mem.length)
    (h : output + blocks * aesBlockSize ≤ at' ∨ at' + n ≤ output) (hat : at' + n ≤ s.mem.length) :
    slice (s.processBlocks engine input output blocks).mem at' n = slice s.mem at' n ∧
      (s.processBlocks engine input output blocks).mem.length = s.mem.length := by
  induction blocks with
  | zero => exact ⟨rfl, rfl⟩
  | succ k ih =>
    rw [Nat.succ_mul] at hout h
    obtain ⟨hslice, hlen⟩ := ih (by omega) (by omega)
    have hstep : s.processBlocks engine input output (k + 1) =
        (s.processBlocks engine input output k).processBlock engine (input + k * aesBlockSize)
          (output + k * aesBlockSize) := by
      rw [processBlocks, List.range_succ, List.foldl_append]
      rfl
    rw [hstep]
    exact ⟨(slice_processBlock (by omega) (by omega) (by omega)).trans hslice,
      (length_processBlock (by omega)).trans hlen⟩

theorem slice_step {s s' : AesSystem σ} {call : AesCall} {at' n : ℕ}
    (hstep : s.step engine call = some s') (hspares : call.Spares at' n)
    (hat : at' + n ≤ s.mem.length) :
    slice s'.mem at' n = slice s.mem at' n ∧ s'.mem.length = s.mem.length := by
  cases call with
  | update h input output length =>
    simp only [step] at hstep
    split_ifs at hstep with hok
    obtain rfl := Option.some.inj hstep
    rw [aesUpdate]
    split_ifs with hlength
    · exact ⟨rfl, rfl⟩
    · have hwhole : length / aesBlockSize * aesBlockSize ≤ length := Nat.div_mul_le_self ..
      simp only [AesCall.Spares] at hspares
      exact slice_processBlocks (by omega) (by omega) hat
  | create h c =>
    simp only [step] at hstep
    split_ifs at hstep
    obtain rfl := Option.some.inj hstep
    exact ⟨rfl, rfl⟩
  | destroy h =>
    simp only [step] at hstep
    split_ifs at hstep
    obtain rfl := Option.some.inj hstep
    exact ⟨rfl, rfl⟩

theorem slice_run {s s' : AesSystem σ} {calls : List AesCall} {at' n : ℕ}
    (hrun : runSteps (step engine) s calls = some s') (hspares : ∀ call ∈ calls, call.Spares at' n)
    (hat : at' + n ≤ s.mem.length) :
    slice s'.mem at' n = slice s.mem at' n ∧ s'.mem.length = s.mem.length := by
  induction calls generalizing s with
  | nil =>
    cases hrun
    exact ⟨rfl, rfl⟩
  | cons call calls ih =>
    obtain ⟨s₁, hstep, hrest⟩ := runSteps_cons hrun
    obtain ⟨hslice, hlen⟩ := slice_step hstep (hspares call List.mem_cons_self) hat
    obtain ⟨hslice', hlen'⟩ := ih hrest (fun c hc => hspares c (List.mem_cons_of_mem _ hc))
      (by rwa [hlen])
    exact ⟨hslice'.trans hslice, hlen'.trans hlen⟩

/-- What was encrypted is decrypted later, with whatever the engine did in between. -/
theorem decrypt_encrypt (he : engine.Computes cipher) {mode : AesMode} {key : List UInt8}
    (hinverse : ∀ block : List UInt8, block.length = aesBlockSize →
      cipher mode false (key.take mode.keyBytes) (cipher mode true (key.take mode.keyBytes) block) =
        block)
    {s₀ s₁ s₂ s₃ s₄ : AesSystem σ} {calls calls' : List AesCall} {h h' : ℕ}
    {plain coded output length : ℕ}
    (hrun : runSteps (step engine) s₀ calls = some s₁)
    (hcreated : lastCreated calls = some ⟨mode, true, key⟩)
    (hencrypt : s₁.step engine (.update h plain coded length) = some s₂)
    (hrun' : runSteps (step engine) s₂ calls' = some s₃)
    (hcreated' : lastCreated calls' = some ⟨mode, false, key⟩)
    (hspares : ∀ call ∈ calls', call.Spares coded length)
    (hdecrypt : s₃.step engine (.update h' coded output length) = some s₄)
    (hlength : length % aesBlockSize = 0) (hoverlap : Compatible plain coded length)
    (hoverlap' : Compatible coded output length) :
    slice s₄.mem output length = slice s₁.mem plain length := by
  obtain ⟨hloaded, hkey⟩ := loaded_run hrun hcreated
  obtain ⟨hloaded', hkey'⟩ := loaded_run hrun' hcreated'
  simp only [step] at hencrypt hdecrypt
  split_ifs at hencrypt hdecrypt with hok hok'
  obtain rfl := Option.some.inj hencrypt
  obtain rfl := Option.some.inj hdecrypt
  have hcoded := slice_aesUpdate he hkey hloaded hlength hok.2.1 hok.2.2 hoverlap
  have hplain := slice_aesUpdate he hkey' hloaded' hlength hok'.2.1 hok'.2.2 hoverlap'
  have hmem := aesUpdate_mem he hkey hloaded hlength hok.2.1 hok.2.2 hoverlap
  have hsize : (ecb (AesContext.transform cipher ⟨mode, true, key⟩)
      (slice s₁.mem plain length)).length = length := by
    rw [length_ecb (length_transform he _), length_slice_of_le hok.2.1]
    exact Nat.div_mul_cancel (Nat.dvd_of_mod_eq_zero hlength)
  have hkept := (slice_run hrun' hspares (by
    rw [hmem, length_writeAt_of_le (by rw [hsize]; exact hok.2.2)]
    exact hok.2.2)).1
  rw [hplain, hkept, hcoded]
  exact ecb_ecb (length_transform he _) hinverse (by rwa [length_slice_of_le hok.2.1])

end AesSystem

/-- An engine that holds what it was started with. -/
def AesEngine.ofCipher (cipher : BlockCipher) : AesEngine AesRegs where
  init r := r
  next r block := Vector.ofFn fun i =>
    loadBe32 ((cipher r.mode r.encode ((r.key.flatMap storeBe32).take r.mode.keyBytes)
      (block.flatMap storeBe32)).drop (i * 4))

theorem computes_ofCipher {cipher : BlockCipher}
    (hsize : ∀ mode encode key block, (cipher mode encode key block).length = aesBlockSize) :
    (AesEngine.ofCipher cipher).Computes cipher := by
  refine ⟨fun r block _ => ?_, hsize⟩
  have hout := hsize r.mode r.encode ((r.key.flatMap storeBe32).take r.mode.keyBytes)
    (block.flatMap storeBe32)
  have hwords := flatMap_blockWords (show 4 * 4 ≤ _ from Nat.le_of_eq hout.symm)
  rw [show 4 * 4 = aesBlockSize from rfl, ← hout, List.take_length] at hwords
  rw [← hwords]
  rfl

/-- AES with the key length of the software for Wi-Fi keys; the others give zeros. -/
def onlyAes128 : BlockCipher
  | .aes128, true, key, block => Wpa2.aes128Encrypt key block
  | .aes128, false, key, block => Wpa2.aes128Decrypt key block
  | _, _, _, _ => List.replicate 16 0

theorem length_onlyAes128 (mode : AesMode) (encode : Bool) (key block : List UInt8) :
    (onlyAes128 mode encode key block).length = aesBlockSize := by
  cases mode <;> cases encode <;>
    simp [onlyAes128, aesBlockSize]

def aesPowerOn (mem : List UInt8) : AesSystem AesRegs :=
  let regs : AesRegs := ⟨List.replicate 8 0, false, .aes128, [], rfl⟩
  ⟨regs, regs, fun _ => none, mem⟩

/-- A block encrypted in place, another key in between, and the block decrypted behind it. -/
theorem decrypt_encrypt_between : ∃ s₁ s₂ s₃ s₄,
    runSteps (AesSystem.step (.ofCipher onlyAes128))
      (aesPowerOn ((List.range 48).map UInt8.ofNat))
      [.create 0 ⟨.aes128, true, List.replicate 16 7⟩] = some s₁ ∧
    s₁.step (.ofCipher onlyAes128) (.update 0 0 0 16) = some s₂ ∧
    runSteps (AesSystem.step (.ofCipher onlyAes128)) s₂
      [.create 1 ⟨.aes256, true, List.replicate 32 9⟩, .update 1 16 16 16, .destroy 0,
        .create 0 ⟨.aes128, false, List.replicate 16 7⟩] = some s₃ ∧
    s₃.step (.ofCipher onlyAes128) (.update 0 0 32 16) = some s₄ ∧
    slice s₄.mem 32 16 = slice ((List.range 48).map UInt8.ofNat) 0 16 := by
  have hinverse : ∀ block : List UInt8, block.length = aesBlockSize →
      onlyAes128 .aes128 false ((List.replicate 16 7).take 16)
        (onlyAes128 .aes128 true ((List.replicate 16 7).take 16) block) = block :=
    fun _ hblock => Wpa2.aes128Decrypt_aes128Encrypt _ hblock
  have hspares : ∀ call ∈ [AesCall.create 1 ⟨.aes256, true, List.replicate 32 9⟩,
      .update 1 16 16 16, .destroy 0, .create 0 ⟨.aes128, false, List.replicate 16 7⟩],
      call.Spares 0 16 := by
    simp [AesCall.Spares]
  refine ⟨_, _, _, _, rfl, rfl, rfl, rfl, ?_⟩
  exact @AesSystem.decrypt_encrypt _ _ _ (computes_ofCipher length_onlyAes128) .aes128 _ hinverse
    (aesPowerOn ((List.range 48).map UInt8.ofNat)) _ _ _ _
    [.create 0 ⟨.aes128, true, List.replicate 16 7⟩] _ 0 0 0 0 32 16 rfl rfl rfl rfl rfl hspares
    rfl rfl (Or.inl le_rfl) (Or.inr (by decide))

end BekenCam.Security
