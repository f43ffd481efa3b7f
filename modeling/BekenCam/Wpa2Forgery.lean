import BekenCam.Wpa2Handshake

/-!
# Forged messages 1

Message 1 carries no MIC, so anyone can send one. Between the genuine message 1 and the
genuine message 3 any number of forged ones may arrive. The station holds one ANonce, one
SNonce and one PTK, and a message 1 for another ANonce replaces all three.
-/
namespace BekenCam.Wpa2

open Prog

variable {σ : Type}

theorem smRun_append (h : Handler Op Op.Answer σ) (xs ys : List (List UInt8)) (sm : Wpa2Sm)
    (s : σ) : smRun h (xs ++ ys) sm s =
      ((smRun h xs sm s).1 ++ (smRun h ys (smRun h xs sm s).2.1 (smRun h xs sm s).2.2).1,
        (smRun h ys (smRun h xs sm s).2.1 (smRun h xs sm s).2.2).2) := by
  induction xs generalizing sm s with
  | nil => rfl
  | cons x xs ih => rw [List.cons_append, smRun_cons, ih, smRun_cons, List.cons_append]

/-- A message 1 from anyone, for any nonce. -/
abbrev Forged := Σ nonce : Octets 32, Message1 nonce

def Forged.bytes (f : Forged) : List UInt8 := f.2.bytes

/-- The frames of a step's answer to message 1. -/
def Step.messages2 (t : Step) : List (List UInt8) :=
  (sentFrames t.events).filter fun m => be16 m 5 = keyInfoMsg2

/-- All answers to one ANonce carry one SNonce. -/
def OneSnonce (ts : List Step) : Prop :=
  ∀ t ∈ ts, ∀ u ∈ ts, nonceField t.frame = nonceField u.frame →
    ∀ m ∈ t.messages2, ∀ n ∈ u.messages2, nonceField m = nonceField n

/-- The last frame completes the handshake, and no ANonce was answered with two SNonces. -/
def Tolerates (ts : List Step) : Prop :=
  (∃ t, ts.getLast? = some t ∧ t.result = .done) ∧ OneSnonce ts

theorem randomDraws_append (ts us : List Step) : randomDraws (runEvents (ts ++ us)) =
    randomDraws (runEvents ts) ++ randomDraws (runEvents us) := by
  simp [randomDraws, runEvents]

theorem randomDraws_cons (t : Step) (ts : List Step) : randomDraws (runEvents (t :: ts)) =
    randomDraws t.events ++ randomDraws (runEvents ts) := by
  simp [randomDraws, runEvents]

theorem mem_messages2 {t : Step} {sm : Wpa2Sm} {replay : Octets 8}
    (h : message2 sm replay ∈ sentFrames t.events) : message2 sm replay ∈ t.messages2 :=
  List.mem_filter.mpr ⟨h, by rw [message2, be16_signed]; rfl⟩

section Forged

variable {h : Handler Op Op.Answer σ} (hops : OpsSucceed h) (pmk : Octets 32) (aa spa : Octets 6)

include hops

/-- Message 1 frames for the ANonce at hand are repetitions. -/
theorem smRun_same {anonce : Octets 32} (snonce : Octets 32) (fs : List Forged)
    (hsame : ∀ f ∈ fs, f.1 = anonce) (s : σ) :
    let out := smRun h (fs.map Forged.bytes) (waiting pmk aa spa anonce snonce) s
    out.2.1 = waiting pmk aa spa anonce snonce ∧ randomDraws (runEvents out.1) = [] ∧
      ∀ t ∈ out.1, ∀ m ∈ sentFrames t.events, nonceField m = snonce.val := by
  induction fs generalizing s with
  | nil => exact ⟨rfl, rfl, by simp [smRun]⟩
  | cons f fs ih =>
    obtain ⟨nonce, m⟩ := f
    obtain rfl : nonce = anonce := hsame _ List.mem_cons_self
    obtain ⟨hlast, hdraws, hsent⟩ := ih (fun f hf => hsame f (List.mem_cons_of_mem _ hf))
      (smStep h (waiting pmk aa spa nonce snonce) m.bytes s).2
    have hstep := smStep_repeated hops pmk aa spa nonce snonce m s
    have hbytes : Forged.bytes ⟨nonce, m⟩ = m.bytes := rfl
    dsimp only
    rw [List.map_cons, smRun_cons, hbytes, hstep]
    refine ⟨hlast, hdraws, fun t ht => ?_⟩
    rcases List.mem_cons.mp ht with rfl | ht
    · intro m2 hm2
      obtain rfl := List.mem_singleton.mp hm2
      exact nonceField_message2 _ _
    · exact hsent t ht

/-- A message 1 for another ANonce makes the station draw a new SNonce, and the last ANonce is
answered with an SNonce from these draws. -/
theorem smRun_changed {anonce : Octets 32} (snonce : Octets 32) (fs : List Forged)
    (hother : ∃ f ∈ fs, f.1 ≠ anonce) (s : σ) :
    let out := smRun h (fs.map Forged.bytes) (waiting pmk aa spa anonce snonce) s
    ∃ last drawn : Octets 32, out.2.1 = waiting pmk aa spa last drawn ∧
      drawn.val ∈ randomDraws (runEvents out.1) ∧
      ∃ t ∈ out.1, nonceField t.frame = last.val ∧ ∃ m ∈ t.messages2, nonceField m = drawn.val := by
  induction fs generalizing anonce snonce s with
  | nil => simp at hother
  | cons f fs ih =>
    obtain ⟨nonce, m⟩ := f
    have hbytes : Forged.bytes ⟨nonce, m⟩ = m.bytes := rfl
    dsimp only
    rw [List.map_cons, smRun_cons, hbytes, randomDraws_cons]
    by_cases hnonce : anonce = nonce
    · -- a repetition, the change comes later
      subst hnonce
      have hrest : ∃ f ∈ fs, f.1 ≠ anonce := by
        obtain ⟨f, hf, hne⟩ := hother
        rcases List.mem_cons.mp hf with rfl | hf
        · exact absurd rfl hne
        · exact ⟨f, hf, hne⟩
      obtain ⟨last, drawn, hlast, hdraws, t, ht, hanswer⟩ := ih snonce hrest
        (smStep h (waiting pmk aa spa anonce snonce) m.bytes s).2
      rw [smStep_repeated hops]
      exact ⟨last, drawn, hlast, List.mem_append_right _ hdraws, t, List.mem_cons_of_mem _ ht,
        hanswer⟩
    · obtain ⟨drawn, hstep⟩ := smStep_other hops pmk aa spa hnonce snonce
        m s
      by_cases hrest : ∃ f ∈ fs, f.1 ≠ nonce
      · obtain ⟨last, drawn', hlast, hdraws, t, ht, hanswer⟩ := ih drawn hrest
          (smStep h (waiting pmk aa spa anonce snonce) m.bytes s).2
        rw [hstep]
        exact ⟨last, drawn', hlast, List.mem_append_right _ hdraws, t, List.mem_cons_of_mem _ ht,
          hanswer⟩
      · -- the last change is here
        push Not at hrest
        obtain ⟨hlast, -, -⟩ := smRun_same hops pmk aa spa drawn fs hrest
          (smStep h (waiting pmk aa spa anonce snonce) m.bytes s).2
        rw [hstep]
        refine ⟨nonce, drawn, hlast, List.mem_append_left _ (List.mem_singleton.mpr rfl), _,
          List.mem_cons_self, nonceField_message1 m, _, mem_messages2 (List.mem_singleton.mpr rfl),
          nonceField_message2 _ _⟩

end Forged

/-- A genuine message 1, forged ones, and the message 3 of the authenticator. -/
def attackedRun (h : Handler Op Op.Answer σ) (s : σ) (pmk : Octets 32) (aa spa : Octets 6)
    (m1 m3 : List UInt8) (forged : List Forged) : List Step :=
  (smRun h (m1 :: (forged.map Forged.bytes ++ [m3])) (wpa2SmInit pmk aa spa) s).1

section Attack

variable {h : Handler Op Op.Answer σ} (hops : OpsSucceed h) (s : σ) (pmk : Octets 32)
  (aa spa : Octets 6) {anonce snonce : Octets 32} (hsnonce : (h (.random 32) s).1 = snonce)
  (m1 : Message1 anonce) (forged : List Forged)

include hops hsnonce

/-- The run is the answer to message 1, the forged frames, and message 3. -/
theorem attackedRun_eq (m3 : List UInt8) :
    ∃ (first : Step) (s₁ : σ), first.frame = m1.bytes ∧
      sentFrames first.events =
        [message2 (waiting pmk aa spa anonce snonce) m1.frame.replay] ∧
      randomDraws first.events = [snonce.val] ∧
      attackedRun h s pmk aa spa m1.bytes m3 forged =
        let mid := smRun h (forged.map Forged.bytes) (waiting pmk aa spa anonce snonce) s₁
        first :: (mid.1 ++ [(smStep h mid.2.1 m3 mid.2.2).1]) := by
  have hfirst := smStep_first hops pmk aa spa anonce m1 s
  dsimp only at hfirst
  rw [hsnonce] at hfirst
  refine ⟨(smStep h (wpa2SmInit pmk aa spa) m1.bytes s).1,
    (smStep h (wpa2SmInit pmk aa spa) m1.bytes s).2, rfl, ?_, ?_, ?_⟩
  · rw [hfirst]
    rfl
  · rw [hfirst]
    rfl
  · rw [attackedRun, smRun_cons, smRun_append, hfirst]
    rfl

variable {keyId : UInt8} {gtk : Octets 16}
  (m3 : Message3 (ieeePtk pmk aa spa anonce snonce) anonce keyId gtk)

/-- Repetitions of the genuine message 1 do no harm. -/
theorem tolerates_of_same (hsame : ∀ f ∈ forged, f.1 = anonce) :
    Tolerates (attackedRun h s pmk aa spa m1.bytes m3.bytes forged) := by
  obtain ⟨first, s₁, -, hanswer, -, hrun⟩ :=
    attackedRun_eq hops s pmk aa spa hsnonce m1 forged m3.bytes
  obtain ⟨hlast, -, hsent⟩ := smRun_same hops pmk aa spa snonce forged
    hsame s₁
  rw [hrun]
  generalize smRun h (forged.map Forged.bytes) (waiting pmk aa spa anonce snonce) s₁ = mid
    at hlast hsent
  dsimp only at hlast hsent ⊢
  rw [hlast]
  obtain ⟨hdone, hconfirm⟩ := smStep_message3 hops m3 mid.2.2
  generalize (smStep h (waiting pmk aa spa anonce snonce) m3.bytes mid.2.2).1 = last
    at hdone hconfirm
  -- every message 2 of the run carries the first SNonce
  have hall : ∀ t ∈ first :: (mid.1 ++ [last]), ∀ m ∈ t.messages2, nonceField m = snonce.val := by
    intro t ht m hm
    obtain ⟨hmem, hinfo⟩ := List.mem_filter.mp hm
    rcases List.mem_cons.mp ht with rfl | ht
    · rw [hanswer] at hmem
      rw [List.mem_singleton.mp hmem]
      exact nonceField_message2 _ _
    rcases List.mem_append.mp ht with ht | ht
    · exact hsent t ht m hmem
    · rw [List.mem_singleton.mp ht, hconfirm] at hmem
      rw [List.mem_singleton.mp hmem, decide_eq_true_eq, confirmation, be16_signed] at hinfo
      have hinfo : keyInfoMsg4 = keyInfoMsg2 := hinfo
      exact absurd hinfo (by decide)
  constructor
  · exact ⟨last, by rw [← List.cons_append, List.getLast?_concat], hdone⟩
  · intro t ht u hu _ m hm n hn
    rw [hall t ht m hm, hall u hu n hn]

/-- A message 1 for another ANonce breaks the handshake, unless the random source repeats
itself. -/
theorem not_tolerates_of_other (hother : ∃ f ∈ forged, f.1 ≠ anonce)
    (hfresh : (randomDraws (runEvents
      (attackedRun h s pmk aa spa m1.bytes m3.bytes forged))).Nodup) :
    ¬Tolerates (attackedRun h s pmk aa spa m1.bytes m3.bytes forged) := by
  obtain ⟨first, s₁, hframe, hanswer, hdraw, hrun⟩ :=
    attackedRun_eq hops s pmk aa spa hsnonce m1 forged m3.bytes
  obtain ⟨last, drawn, hlast, hdraws, t, ht, htframe, m, hm, hmnonce⟩ :=
    smRun_changed hops pmk aa spa snonce forged hother s₁
  rw [hrun] at hfresh ⊢
  generalize smRun h (forged.map Forged.bytes) (waiting pmk aa spa anonce snonce) s₁ = mid
    at hlast hdraws ht hfresh
  dsimp only at hlast hdraws ht hfresh ⊢
  rintro ⟨⟨u, hu, hdone⟩, hone⟩
  by_cases hanonce : last = anonce
  · -- the genuine ANonce was answered with two draws
    subst hanonce
    have hfirst := mem_messages2 (t := first) (by rw [hanswer]; exact List.mem_singleton_self _)
    have hsame := hone first List.mem_cons_self t
      (List.mem_cons_of_mem _ (List.mem_append_left _ ht))
      (by rw [hframe, nonceField_message1, htframe]) _ hfirst m hm
    rw [nonceField_message2, hmnonce] at hsame
    have hsame : snonce.val = drawn.val := hsame
    rw [randomDraws_cons, hdraw, randomDraws_append, List.singleton_append, hsame] at hfresh
    exact (List.nodup_cons.mp hfresh).1 (List.mem_append_left _ hdraws)
  · rw [← List.cons_append, List.getLast?_concat] at hu
    rw [← Option.some.inj hu, hlast, smStep_message3_stale (fun heq => hanonce heq.symm)] at hdone
    exact absurd hdone (by decide)

/-- After a forged message 1 for another ANonce the genuine message 3 is ignored, whatever the
random source does. -/
theorem not_tolerates_singleton (f : Forged) (hne : anonce ≠ f.1) :
    ¬Tolerates (attackedRun h s pmk aa spa m1.bytes m3.bytes [f]) := by
  obtain ⟨first, s₁, -, -, -, hrun⟩ := attackedRun_eq hops s pmk aa spa hsnonce m1 [f] m3.bytes
  obtain ⟨drawn, hstep⟩ := smStep_other hops pmk aa spa hne snonce f.2 s₁
  have hbytes : Forged.bytes f = f.2.bytes := rfl
  rw [hrun, List.map_singleton, smRun_cons, hbytes, hstep]
  rintro ⟨⟨u, hu, hdone⟩, -⟩
  rw [← List.cons_append, List.getLast?_concat] at hu
  rw [← Option.some.inj hu] at hdone
  change (smStep h (waiting pmk aa spa f.1 drawn) m3.bytes _).1.result = _ at hdone
  rw [smStep_message3_stale hne] at hdone
  exact absurd hdone (by decide)

/-- Repetitions draw no further random bytes. -/
theorem randomDraws_of_same (hsame : ∀ f ∈ forged, f.1 = anonce) :
    randomDraws (runEvents (attackedRun h s pmk aa spa m1.bytes m3.bytes forged)) =
      [snonce.val] := by
  obtain ⟨first, s₁, -, -, hdraw, hrun⟩ :=
    attackedRun_eq hops s pmk aa spa hsnonce m1 forged m3.bytes
  obtain ⟨hlast, hdraws, -⟩ := smRun_same hops pmk aa spa snonce forged
    hsame s₁
  rw [hrun]
  generalize smRun h (forged.map Forged.bytes) (waiting pmk aa spa anonce snonce) s₁ = mid
    at hlast hdraws
  dsimp only at hlast hdraws ⊢
  obtain ⟨-, hconfirm⟩ := smStep_message3 hops m3 mid.2.2
  rw [hlast, randomDraws_cons, randomDraws_append, hdraw, hdraws, randomDraws_cons, hconfirm]
  rfl

end Attack

/-- Forged messages 1 are harmless exactly when all of them carry the ANonce of the genuine
one. -/
theorem wpa2_forged_message1_iff {h : Handler Op Op.Answer σ} (hops : OpsSucceed h) (s : σ)
    (pmk : Octets 32) (aa spa : Octets 6) {anonce snonce : Octets 32} (m1 : Message1 anonce)
    (hread : ∃ m2 ∈ sentFrames (smStep h (wpa2SmInit pmk aa spa) m1.bytes s).1.events,
      nonceField m2 = snonce.val)
    {keyId : UInt8} {gtk : Octets 16}
    (m3 : Message3 (ieeePtk pmk aa spa anonce snonce) anonce keyId gtk) (forged : List Forged)
    (hfresh : (randomDraws (runEvents
      (attackedRun h s pmk aa spa m1.bytes m3.bytes forged))).Nodup) :
    Tolerates (attackedRun h s pmk aa spa m1.bytes m3.bytes forged) ↔
      ∀ f ∈ forged, f.1 = anonce := by
  have hsnonce : (h (.random 32) s).1 = snonce := by
    obtain ⟨m2, hm2, hnonce⟩ := hread
    rw [smStep_first hops pmk aa spa anonce m1 s] at hm2
    rw [List.mem_singleton.mp hm2, nonceField_message2] at hnonce
    exact Subtype.ext hnonce
  constructor
  · intro htol
    by_contra hother
    push Not at hother
    exact not_tolerates_of_other hops s pmk aa spa hsnonce m1 forged m3 hother hfresh htol
  · exact tolerates_of_same hops s pmk aa spa hsnonce m1 forged m3

/-- A run in which the genuine message 1 is repeated once. -/
theorem wpa2_forged_message1_iff_repeated :
    Tolerates (attackedRun countingOps 0 (Octets.zero 32) (Octets.zero 6) (Octets.zero 6)
      (plainMessage1 (Octets.zero 32)).bytes
      (plainMessage3 (ieeePtk (Octets.zero 32) (Octets.zero 6) (Octets.zero 6) (Octets.zero 32)
        (countingOps (.random 32) 0).1) (Octets.zero 32) (Octets.zero 16)).bytes
      [⟨Octets.zero 32, plainMessage1 (Octets.zero 32)⟩]) := by
  have hsame : ∀ f ∈ ([⟨Octets.zero 32, plainMessage1 (Octets.zero 32)⟩] : List Forged),
      f.1 = Octets.zero 32 := by
    intro f hf
    rw [List.mem_singleton.mp hf]
  have hread := exists_message2_first countingOps_succeed (Octets.zero 32) (Octets.zero 6)
    (Octets.zero 6) (plainMessage1 (Octets.zero 32)) 0
  refine (wpa2_forged_message1_iff countingOps_succeed 0 _ _ _ _ hread _ _ ?_).mpr hsame
  rw [randomDraws_of_same countingOps_succeed 0 _ _ _ rfl _ _ _ hsame]
  exact List.nodup_singleton _

/-- The nonce of the forged frame below. -/
def otherNonce : Octets 32 := ⟨List.replicate 32 1, rfl⟩

/-- One forged message 1 with another nonce locks the genuine message 3 out. -/
theorem forged_message1_locks_out :
    (∃ m2 ∈ sentFrames (smStep countingOps
      (wpa2SmInit (Octets.zero 32) (Octets.zero 6) (Octets.zero 6))
      (plainMessage1 (Octets.zero 32)).bytes 0).1.events,
      nonceField m2 = ((countingOps (.random 32) 0).1 : Octets 32).val) ∧
    ¬Tolerates (attackedRun countingOps 0 (Octets.zero 32) (Octets.zero 6) (Octets.zero 6)
      (plainMessage1 (Octets.zero 32)).bytes
      (plainMessage3 (ieeePtk (Octets.zero 32) (Octets.zero 6) (Octets.zero 6) (Octets.zero 32)
        (countingOps (.random 32) 0).1) (Octets.zero 32) (Octets.zero 16)).bytes
      [⟨otherNonce, plainMessage1 otherNonce⟩]) := by
  constructor
  · exact exists_message2_first countingOps_succeed (Octets.zero 32) (Octets.zero 6)
      (Octets.zero 6) (plainMessage1 (Octets.zero 32)) 0
  · exact not_tolerates_singleton countingOps_succeed 0 _ _ _ rfl _ _ _ (by decide)

end BekenCam.Wpa2
