import BekenCam.Wpa2Aes

/-!
# What unwraps has been wrapped

A block cipher that can be decrypted is a permutation of the blocks, so the decryption is undone by
the encryption too. Then the two key wrap loops undo each other in both orders, and the integrity
check accepts the wrapped keys and nothing else.
-/
namespace BekenCam.Wpa2

/-! ## The tables are complete -/

/-- `p` is back at 1 within `n` turns. -/
def sBoxEnds : ℕ → UInt8 → Bool
  | 0, _ => false
  | n + 1, p =>
    let p := p ^^^ (p <<< 1) ^^^ (if p &&& 0x80 ≠ 0 then 0x1b else 0)
    p == 1 || sBoxEnds n p

theorem sBoxLoop_add {m : ℕ} (n : ℕ) {p : UInt8} (q : UInt8) (table : List UInt8)
    (h : sBoxEnds m p = true) : sBoxLoop (m + n) p q table = sBoxLoop m p q table := by
  induction m generalizing p q table with
  | zero => cases h
  | succ m ih =>
    simp only [sBoxEnds, Bool.or_eq_true, beq_iff_eq] at h
    rw [Nat.succ_add, sBoxLoop, sBoxLoop]
    set next := p ^^^ (p <<< 1) ^^^ (if p &&& 0x80 ≠ 0 then 0x1b else 0) with hnext
    by_cases hlast : next = 1
    · rw [if_pos hlast, if_pos hlast]
    · rw [if_neg hlast, if_neg hlast]
      exact ih _ _ (h.resolve_left hlast)

/-- The loop of `init_tables` takes no more than its 255 turns. -/
theorem sBoxLoop_enough (n : ℕ) (table : List UInt8) :
    sBoxLoop (255 + n) 1 1 table = sBoxLoop 255 1 1 table :=
  sBoxLoop_add n 1 table (by decide +kernel)

/-! ## The other order -/

instance : Finite Block := by
  refine Finite.of_injective (β := Fin 16 → Fin 256) (fun s k => s[k].toFin) fun s t h => ?_
  apply Vector.ext
  intro k hk
  exact UInt8.toFin_inj.mp (congrFun h ⟨k, hk⟩)

theorem encryptBlock_decryptBlock (rk : List UInt8) (s : Block) :
    encryptBlock rk (decryptBlock rk s) = s := by
  have hleft : Function.LeftInverse (decryptBlock rk) (encryptBlock rk) :=
    decryptBlock_encryptBlock rk
  have honto : Function.Surjective (encryptBlock rk) :=
    Finite.surjective_of_injective hleft.injective
  exact hleft.rightInverse_of_surjective honto s

theorem aes128Encrypt_aes128Decrypt (key : List UInt8) {input : List UInt8}
    (h : input.length = 16) : aes128Encrypt key (aes128Decrypt key input) = input := by
  rw [aes128Encrypt, aes128Decrypt, toBlock_toList, encryptBlock_decryptBlock, toList_toBlock h]

theorem unwrapStep_shape {kek : List UInt8} {n : ℕ} {s : List UInt8 × List UInt8} {ji : ℕ × ℕ}
    (hs : WrapShape n s) (hi : 1 ≤ ji.2 ∧ ji.2 ≤ n) : WrapShape n (unwrapStep kek n s ji) := by
  have hend : 8 * (ji.2 - 1) + 8 ≤ 8 * n := by omega
  constructor
  · simp [unwrapStep]
  · rw [unwrapStep, length_writeAt_of_le (by simp [hs.2, hend]), hs.2]

theorem wrapStep_unwrapStep {kek : List UInt8} {n : ℕ} {s : List UInt8 × List UInt8} {ji : ℕ × ℕ}
    (hs : WrapShape n s) (hi : 1 ≤ ji.2 ∧ ji.2 ≤ n) :
    wrapStep kek n (unwrapStep kek n s ji) ji = s := by
  obtain ⟨a, r⟩ := s
  obtain ⟨j, i⟩ := ji
  obtain ⟨ha, hr⟩ := hs
  dsimp only at ha hr hi
  have hend : 8 * (i - 1) + 8 ≤ r.length := by omega
  have hpiece : (slice r (8 * (i - 1)) 8).length = 8 := length_slice_of_le hend
  have hcounted : (xorCounter a (n * j + i)).length = 8 := by rw [length_xorCounter, ha]
  set b := aes128Decrypt kek (xorCounter a (n * j + i) ++ slice r (8 * (i - 1)) 8) with hb
  have hblen : b.length = 16 := length_aes128Decrypt _ _
  have hdrop : (b.drop 8).length = 8 := by rw [List.length_drop, hblen]
  have hback : slice (writeAt r (8 * (i - 1)) (b.drop 8)) (8 * (i - 1)) 8 = b.drop 8 := by
    have h : slice (writeAt r (8 * (i - 1)) (b.drop 8)) (8 * (i - 1)) (b.drop 8).length =
        b.drop 8 := slice_writeAt (by omega)
    rwa [hdrop] at h
  have hcipher : aes128Encrypt kek b = xorCounter a (n * j + i) ++ slice r (8 * (i - 1)) 8 :=
    aes128Encrypt_aes128Decrypt kek (by rw [List.length_append, hcounted, hpiece])
  simp only [wrapStep, unwrapStep, ← hb, hback, List.take_append_drop]
  rw [hcipher, List.take_left' hcounted, List.drop_left' hcounted, xorCounter_xorCounter ha,
    writeAt_restore hdrop hend]

theorem mem_unwrapTurns {n : ℕ} {ji : ℕ × ℕ} (h : ji ∈ unwrapTurns n) :
    1 ≤ ji.2 ∧ ji.2 ≤ n := by
  rw [← reverse_wrapTurns, List.mem_reverse] at h
  exact mem_wrapTurns h

theorem foldl_unwrapStep_shape (kek : List UInt8) {n : ℕ} (turns : List (ℕ × ℕ))
    (hturns : ∀ ji ∈ turns, 1 ≤ ji.2 ∧ ji.2 ≤ n) (s : List UInt8 × List UInt8)
    (hs : WrapShape n s) : WrapShape n (turns.foldl (unwrapStep kek n) s) := by
  induction turns generalizing s with
  | nil => exact hs
  | cons ji turns ih =>
    rw [List.foldl_cons]
    exact ih (fun ji' h => hturns ji' (by simp [h])) _ (unwrapStep_shape hs (hturns ji (by simp)))

/-- What the unwrap loop makes of an input is wrapped to that input again. -/
theorem aesKeyWrap_of_aesKeyUnwrap {kek input plain : List UInt8}
    (h : aesKeyUnwrap kek input = some plain) :
    plain.length + 8 = input.length ∧ aesKeyWrap kek plain = input := by
  unfold aesKeyUnwrap at h
  dsimp only at h
  split_ifs at h with hsize hcheck
  obtain rfl := Option.some.inj h
  rw [not_or, not_lt, not_not] at hsize
  set n := input.length / 8 - 1 with hn
  have hstart : WrapShape n (input.take 8, input.drop 8) := by
    constructor
    · rw [List.length_take]
      omega
    · rw [List.length_drop]
      omega
  have hend := foldl_unwrapStep_shape kek (unwrapTurns n) (fun _ => mem_unwrapTurns)
    (input.take 8, input.drop 8) hstart
  set s := (unwrapTurns n).foldl (unwrapStep kek n) (input.take 8, input.drop 8) with hs
  have hloop := foldl_reverse_foldl (f := unwrapStep kek n) (g := wrapStep kek n) id
    (P := WrapShape n) (fun s ji => unwrapStep_shape) (fun s ji => wrapStep_unwrapStep)
    (unwrapTurns n) (fun _ => mem_unwrapTurns) (input.take 8, input.drop 8) hstart
  rw [← reverse_wrapTurns, List.reverse_reverse, id_eq, id_eq, reverse_wrapTurns, ← hs] at hloop
  have hlen := hend.2
  have hblocks : s.2.length / 8 = n := by omega
  have hpair : s = (kIv, s.2) := Prod.ext hcheck rfl
  refine ⟨by omega, ?_⟩
  rw [hpair] at hloop
  rw [aesKeyWrap, hblocks, hloop, List.take_append_drop]

/-- The key wrap round trip: what has been wrapped unwraps to the plain text, nothing else unwraps,
and a block decryption undoes the encryption of every block and the other way round. -/
theorem wpa2_key_wrap_unwrap (kek : Octets 16) :
    (∀ plain : List UInt8, plain.length % 8 = 0 → 16 ≤ plain.length →
      aesKeyUnwrap kek.val (aesKeyWrap kek.val plain) = some plain) ∧
    (∀ input : List UInt8, input.length % 8 = 0 → 24 ≤ input.length →
      (∀ plain, aesKeyUnwrap kek.val input = some plain ↔
        plain.length + 8 = input.length ∧ input = aesKeyWrap kek.val plain)) ∧
    ∀ block : Octets 16, aes128Decrypt kek.val (aes128Encrypt kek.val block.val) = block.val ∧
      aes128Encrypt kek.val (aes128Decrypt kek.val block.val) = block.val := by
  refine ⟨fun plain hsize hmin => aesKeyUnwrap_aesKeyWrap kek.val hsize hmin,
    fun input hsize hmin plain => ?_, fun block => ?_⟩
  · constructor
    · intro h
      obtain ⟨hlen, hwrap⟩ := aesKeyWrap_of_aesKeyUnwrap h
      exact ⟨hlen, hwrap.symm⟩
    · rintro ⟨hlen, rfl⟩
      exact aesKeyUnwrap_aesKeyWrap kek.val (by omega) (by omega)
  · exact ⟨aes128Decrypt_aes128Encrypt kek.val block.property,
      aes128Encrypt_aes128Decrypt kek.val block.property⟩

theorem wpa2_key_wrap_unwrap_zeros :
    aesKeyUnwrap (List.replicate 16 0) (aesKeyWrap (List.replicate 16 0) (List.replicate 16 0)) =
      some (List.replicate 16 0) ∧
    (aesKeyUnwrap (List.replicate 16 0) (List.replicate 24 0) = some (List.replicate 16 0) ↔
      (List.replicate 16 (0 : UInt8)).length + 8 = (List.replicate 24 (0 : UInt8)).length ∧
        List.replicate 24 0 = aesKeyWrap (List.replicate 16 0) (List.replicate 16 0)) := by
  obtain ⟨hunwrap, honly, -⟩ := wpa2_key_wrap_unwrap (Octets.zero 16)
  exact ⟨hunwrap (List.replicate 16 0) (by decide) (by decide),
    honly (List.replicate 24 0) (by decide) (by decide) (List.replicate 16 0)⟩

end BekenCam.Wpa2
