import BekenCam.TlvModel

/-!
# When a TLV walk is safe

The guard of `walk_range` adds up an address and a length from the flash modulo `2 ^ 32`. As long as
no sum comes back into the range, the walk ends, keeps to the payloads and accepts exactly the
ranges that entries tile. A sum that comes back gets visited.
-/
namespace BekenCam.Tlv

section

variable (memory : ℕ → UInt8) (isContainer : UInt32 → Bool)

def word (a : ℕ) : UInt32 := readU32le ((List.range 4).map fun i => memory (a + i))

/-- The entries in a memory, without a word on the width of an address. -/
def layout : Layout where
  header := tlvEntryHeaderSize
  len a := (word memory (a + 4)).toNat
  container a := isContainer (word memory a)

def entryAt (addr depth : UInt32) : TlvEntry where
  type := word memory addr.toNat
  len := word memory (addr.toNat + 4)
  payloadOffset := addr + UInt32.ofNat tlvEntryHeaderSize
  depth := depth

/-- What the walk makes of the payload of an entry. -/
def nestedWalk (fuel : ℕ) (entry : TlvEntry) : Walk :=
  if isContainer entry.type then
    walkRange (reading memory) isContainer fuel
      ⟨entry.payloadOffset, entry.payloadOffset + entry.len⟩ (entry.depth + 1)
  else ⟨[], some .ok⟩

theorem walkFrom_eq (fuel : ℕ) (range : Range) (addr depth : UInt32) :
    walkFrom (reading memory) isContainer (fuel + 1) range addr depth =
      if addr < range.stop then
        let entry := entryAt memory addr depth
        let next := entry.payloadOffset + entry.len
        if next > range.stop then ⟨[], some .errTooLarge⟩
        else
          Walk.andThen ⟨[⟨entry, addr, range⟩], some .ok⟩
            ((nestedWalk memory isContainer fuel entry).andThen
              (walkFrom (reading memory) isContainer fuel range next depth))
      else ⟨[], some .ok⟩ := rfl

/-! ## Safety -/

/-- The payload is what stands behind the header, and inside the range. -/
def Visit.Inside (v : Visit) : Prop :=
  v.entry.payloadOffset.toNat = v.addr.toNat + tlvEntryHeaderSize ∧
    v.range.start.toNat ≤ v.entry.payloadOffset.toNat ∧
      v.entry.payloadOffset.toNat + v.entry.len.toNat ≤ v.range.stop.toNat

def Returns (start len : UInt32) (r : TlvResult) : Prop :=
  ∃ fuel, (tlvWalk (reading memory) isContainer fuel start len).result = some r

structure Safe (start len : UInt32) : Prop where
  ends : ∃ r, Returns memory isContainer start len r
  inside : ∀ fuel, ∀ v ∈ (tlvWalk (reading memory) isContainer fuel start len).visited, v.Inside
  ok_iff : Returns memory isContainer start len .ok ↔
    (layout memory isContainer).Tiled start.toNat (start.toNat + len.toNat)

end

/-! ## One entry -/

variable {memory : ℕ → UInt8} {isContainer : UInt32 → Bool}

theorem toNat_next (isContainer : UInt32 → Bool) (addr depth : UInt32) :
    ((entryAt memory addr depth).payloadOffset + (entryAt memory addr depth).len).toNat =
      (layout memory isContainer).next addr.toNat % 2 ^ 32 := by
  have hheader : (UInt32.ofNat tlvEntryHeaderSize).toNat = tlvEntryHeaderSize := rfl
  simp only [entryAt, UInt32.toNat_add, hheader, Layout.next, Layout.payload, layout]
  omega

/-- An entry that fits: nothing wraps. -/
structure Fits (memory : ℕ → UInt8) (isContainer : UInt32 → Bool) (addr depth : UInt32) :
    Prop where
  payload : (entryAt memory addr depth).payloadOffset.toNat =
    (layout memory isContainer).payload addr.toNat
  next : ((entryAt memory addr depth).payloadOffset + (entryAt memory addr depth).len).toNat =
    (layout memory isContainer).next addr.toNat
  advances : addr.toNat < (layout memory isContainer).payload addr.toNat
  ordered : (entryAt memory addr depth).payloadOffset.toNat ≤
    ((entryAt memory addr depth).payloadOffset + (entryAt memory addr depth).len).toNat

theorem fits_of_le {addr stop : UInt32} (depth : UInt32)
    (h : (layout memory isContainer).next addr.toNat ≤ stop.toNat) :
    Fits memory isContainer addr depth := by
  have hstop := stop.toNat_lt
  have horder := (layout memory isContainer).payload_le_next addr.toNat
  have hheader : (UInt32.ofNat tlvEntryHeaderSize).toNat = tlvEntryHeaderSize := rfl
  have hsum : (layout memory isContainer).payload addr.toNat =
    addr.toNat + tlvEntryHeaderSize := rfl
  have hpayload : (entryAt memory addr depth).payloadOffset.toNat =
      (layout memory isContainer).payload addr.toNat := by
    rw [entryAt, UInt32.toNat_add, hheader, ← hsum, Nat.mod_eq_of_lt (by omega)]
  have hnext : ((entryAt memory addr depth).payloadOffset +
      (entryAt memory addr depth).len).toNat = (layout memory isContainer).next addr.toNat := by
    rw [toNat_next isContainer, Nat.mod_eq_of_lt (by omega)]
  refine ⟨hpayload, hnext, ?_, by omega⟩
  rw [hsum]
  exact Nat.lt_add_of_pos_right (by decide)

/-! ## One turn -/

section

variable (fuel : ℕ) {range : Range} {addr : UInt32} (depth : UInt32)

theorem walkFrom_end (h : addr.toNat = range.stop.toNat) :
    walkFrom (reading memory) isContainer (fuel + 1) range addr depth = ⟨[], some .ok⟩ := by
  rw [walkFrom_eq, if_neg]
  rw [UInt32.lt_iff_toNat_lt, h]
  exact Nat.lt_irrefl _

theorem walkFrom_large (hlt : addr.toNat < range.stop.toNat)
    (h : range.stop.toNat < (layout memory isContainer).next addr.toNat % 2 ^ 32) :
    walkFrom (reading memory) isContainer (fuel + 1) range addr depth =
      ⟨[], some .errTooLarge⟩ := by
  rw [walkFrom_eq, if_pos (UInt32.lt_iff_toNat_lt.mpr hlt), if_pos]
  rwa [gt_iff_lt, UInt32.lt_iff_toNat_lt, toNat_next isContainer]

theorem walkFrom_accepted (hlt : addr.toNat < range.stop.toNat)
    (h : (layout memory isContainer).next addr.toNat % 2 ^ 32 ≤ range.stop.toNat) :
    walkFrom (reading memory) isContainer (fuel + 1) range addr depth =
      Walk.andThen ⟨[⟨entryAt memory addr depth, addr, range⟩], some .ok⟩
        ((nestedWalk memory isContainer fuel (entryAt memory addr depth)).andThen
          (walkFrom (reading memory) isContainer fuel range
            ((entryAt memory addr depth).payloadOffset + (entryAt memory addr depth).len)
            depth)) := by
  rw [walkFrom_eq, if_pos (UInt32.lt_iff_toNat_lt.mpr hlt), if_neg]
  rw [gt_iff_lt, UInt32.lt_iff_toNat_lt, toNat_next isContainer]
  exact Nat.not_lt.mpr h

theorem nestedWalk_container (h : (layout memory isContainer).container addr.toNat = true) :
    nestedWalk memory isContainer fuel (entryAt memory addr depth) =
      walkFrom (reading memory) isContainer fuel
        ⟨(entryAt memory addr depth).payloadOffset,
          (entryAt memory addr depth).payloadOffset + (entryAt memory addr depth).len⟩
        (entryAt memory addr depth).payloadOffset (depth + 1) :=
  if_pos h

theorem nestedWalk_leaf (h : ¬(layout memory isContainer).container addr.toNat = true) :
    nestedWalk memory isContainer fuel (entryAt memory addr depth) = ⟨[], some .ok⟩ :=
  if_neg h

end

theorem Walk.andThen_ends {w next : Walk} (hw : w.result ≠ none)
    (hnext : w.result = some .ok → next.result ≠ none) : (w.andThen next).result ≠ none := by
  unfold Walk.andThen
  split_ifs with hok
  · exact hnext hok
  · exact hw

theorem Walk.andThen_ok {w next : Walk} (hw : w.result = some .ok)
    (hnext : next.result = some .ok) : (w.andThen next).result = some .ok := by
  rw [Walk.andThen, if_pos hw, hnext]

theorem Walk.subset_andThen {w next : Walk} (hw : w.result = some .ok) :
    next.visited ⊆ (w.andThen next).visited := by
  rw [Walk.andThen, if_pos hw]
  exact List.subset_append_right _ _

theorem Walk.subset_andThen_left (w next : Walk) : w.visited ⊆ (w.andThen next).visited := by
  unfold Walk.andThen
  split_ifs
  · exact List.subset_append_left _ _
  · exact List.Subset.refl _

/-! ## A walk whose sums do not come back -/

/-- A walk that only returns `TLV_OK` when `p` holds, and only visits payloads. -/
structure Walk.Sound (w : Walk) (p : Prop) : Prop where
  ok : w.result = some .ok → p
  inside : ∀ v ∈ w.visited, v.Inside

theorem Walk.Sound.andThen {w next : Walk} {p q : Prop} (hw : w.Sound p)
    (hnext : p → next.Sound q) : (w.andThen next).Sound (p ∧ q) := by
  unfold Walk.andThen
  split_ifs with hok
  · have hp := hw.ok hok
    refine ⟨fun h => ⟨hp, (hnext hp).ok h⟩, fun v hv => ?_⟩
    rcases List.mem_append.mp hv with hv | hv
    · exact hw.inside v hv
    · exact (hnext hp).inside v hv
  · exact ⟨fun h => absurd h hok, hw.inside⟩

theorem Walk.Sound.imp {w : Walk} {p q : Prop} (h : w.Sound p) (hpq : p → q) : w.Sound q :=
  ⟨fun hok => hpq (h.ok hok), h.inside⟩

theorem inside_of_fits {addr depth : UInt32} {range : Range}
    (h : Fits memory isContainer addr depth) (hstart : range.start.toNat ≤ addr.toNat)
    (hle : (layout memory isContainer).next addr.toNat ≤ range.stop.toNat) :
    Visit.Inside ⟨entryAt memory addr depth, addr, range⟩ := by
  have hpayload := h.payload
  have hadvances := h.advances
  have hend : (layout memory isContainer).next addr.toNat =
    (layout memory isContainer).payload addr.toNat + (entryAt memory addr depth).len.toNat := rfl
  refine ⟨h.payload, ?_, ?_⟩
  · dsimp only
    omega
  · dsimp only
    omega

theorem walkFrom_sound (fuel : ℕ) (range : Range) (addr depth : UInt32)
    (hstart : range.start.toNat ≤ addr.toNat) (hstop : addr.toNat ≤ range.stop.toNat)
    (h : (layout memory isContainer).Unwrapped (2 ^ 32) addr.toNat range.stop.toNat) :
    (walkFrom (reading memory) isContainer fuel range addr depth).Sound
      ((layout memory isContainer).Tiled addr.toNat range.stop.toNat) := by
  induction fuel generalizing range addr depth with
  | zero => exact ⟨nofun, nofun⟩
  | succ fuel ih =>
    rcases hstop.eq_or_lt with heq | hlt
    · rw [walkFrom_end fuel depth heq, heq]
      exact ⟨fun _ => .nil _, nofun⟩
    · rcases Nat.lt_or_ge range.stop.toNat
        ((layout memory isContainer).next addr.toNat % 2 ^ 32) with hlarge | hmod
      · rw [walkFrom_large fuel depth hlt hlarge]
        exact ⟨nofun, nofun⟩
      · have hle := h.fits hlt hmod
        have hfits := fits_of_le depth hle
        have hvisit : Walk.Sound ⟨[⟨entryAt memory addr depth, addr, range⟩], some .ok⟩ True := by
          refine ⟨fun _ => trivial, fun v hv => ?_⟩
          rw [List.mem_singleton.mp hv]
          exact inside_of_fits hfits hstart hle
        have hnested : (nestedWalk memory isContainer fuel (entryAt memory addr depth)).Sound
            ((layout memory isContainer).container addr.toNat = true →
              (layout memory isContainer).Tiled ((layout memory isContainer).payload addr.toNat)
                ((layout memory isContainer).next addr.toNat)) := by
          by_cases hcontainer : (layout memory isContainer).container addr.toNat = true
          · have hinner := h.inner hlt hle hcontainer
            rw [nestedWalk_container fuel depth hcontainer]
            rw [← hfits.payload, ← hfits.next] at hinner ⊢
            exact (ih ⟨_, _⟩ _ _ (Nat.le_refl _) hfits.ordered hinner).imp fun ht _ => ht
          · rw [nestedWalk_leaf fuel depth hcontainer]
            exact ⟨fun _ hc => absurd hc hcontainer, nofun⟩
        have hrest : ((layout memory isContainer).container addr.toNat = true →
            (layout memory isContainer).Tiled ((layout memory isContainer).payload addr.toNat)
              ((layout memory isContainer).next addr.toNat)) →
            (walkFrom (reading memory) isContainer fuel range
              ((entryAt memory addr depth).payloadOffset + (entryAt memory addr depth).len)
              depth).Sound ((layout memory isContainer).Tiled
                ((layout memory isContainer).next addr.toNat) range.stop.toNat) := by
          intro ht
          have hbehind := h.rest hlt hle ht
          have hnext := hfits.next
          have horder := hfits.ordered
          have hpayload := hfits.payload
          have hadvances := hfits.advances
          rw [← hnext] at hbehind ⊢
          exact ih range _ depth (by omega) (by omega) hbehind
        rw [walkFrom_accepted fuel depth hlt hmod]
        exact (hvisit.andThen fun _ => hnested.andThen hrest).imp fun ht =>
          .cons hle ht.2.1 ht.2.2

/-- Entries that tile a range are walked to the end of it. -/
theorem walkFrom_of_tiled (fuel : ℕ) (range : Range) (addr depth : UInt32)
    (hfuel : range.stop.toNat - addr.toNat < fuel)
    (h : (layout memory isContainer).Tiled addr.toNat range.stop.toNat) :
    (walkFrom (reading memory) isContainer fuel range addr depth).result = some .ok := by
  induction fuel generalizing range addr depth with
  | zero => omega
  | succ fuel ih =>
    rcases h.le.eq_or_lt with heq | hlt
    · rw [walkFrom_end fuel depth heq]
    · obtain ⟨hle, hnested, hrest⟩ := (Layout.tiled_iff hlt).mp h
      have hfits := fits_of_le depth hle
      have hpayload := hfits.payload
      have hnext := hfits.next
      have hadvances := hfits.advances
      have horder := hfits.ordered
      rw [walkFrom_accepted fuel depth hlt (Nat.le_trans (Nat.mod_le _ _) hle)]
      refine Walk.andThen_ok rfl (Walk.andThen_ok ?_ ?_)
      · by_cases hcontainer : (layout memory isContainer).container addr.toNat = true
        · have hinner := hnested hcontainer
          rw [nestedWalk_container fuel depth hcontainer]
          rw [← hpayload, ← hnext] at hinner
          refine ih ⟨_, _⟩ _ _ ?_ hinner
          dsimp only
          omega
        · rw [nestedWalk_leaf fuel depth hcontainer]
      · rw [← hnext] at hrest
        exact ih range _ depth (by omega) hrest

theorem walkFrom_ends (fuel : ℕ) (range : Range) (addr depth : UInt32)
    (hstart : range.start.toNat ≤ addr.toNat) (hstop : addr.toNat ≤ range.stop.toNat)
    (hfuel : range.stop.toNat - addr.toNat < fuel)
    (h : (layout memory isContainer).Unwrapped (2 ^ 32) addr.toNat range.stop.toNat) :
    (walkFrom (reading memory) isContainer fuel range addr depth).result ≠ none := by
  induction fuel generalizing range addr depth with
  | zero => omega
  | succ fuel ih =>
    rcases hstop.eq_or_lt with heq | hlt
    · rw [walkFrom_end fuel depth heq]
      nofun
    · rcases Nat.lt_or_ge range.stop.toNat
        ((layout memory isContainer).next addr.toNat % 2 ^ 32) with hlarge | hmod
      · rw [walkFrom_large fuel depth hlt hlarge]
        nofun
      · have hle := h.fits hlt hmod
        have hfits := fits_of_le depth hle
        have hpayload := hfits.payload
        have hnext := hfits.next
        have hadvances := hfits.advances
        have horder := hfits.ordered
        rw [walkFrom_accepted fuel depth hlt hmod]
        refine Walk.andThen_ends (by nofun) fun _ => Walk.andThen_ends ?_ fun hok => ?_
        · by_cases hcontainer : (layout memory isContainer).container addr.toNat = true
          · have hinner := h.inner hlt hle hcontainer
            rw [nestedWalk_container fuel depth hcontainer]
            rw [← hpayload, ← hnext] at hinner
            refine ih ⟨_, _⟩ _ _ (Nat.le_refl _) horder ?_ hinner
            dsimp only
            omega
          · rw [nestedWalk_leaf fuel depth hcontainer]
            nofun
        · have hnested : (layout memory isContainer).container addr.toNat = true →
              (layout memory isContainer).Tiled ((layout memory isContainer).payload addr.toNat)
                ((layout memory isContainer).next addr.toNat) := by
            intro hcontainer
            have hinner := h.inner hlt hle hcontainer
            rw [nestedWalk_container fuel depth hcontainer] at hok
            rw [← hpayload, ← hnext] at hinner ⊢
            exact (walkFrom_sound fuel ⟨_, _⟩ _ _ (Nat.le_refl _) horder hinner).ok hok
          have hrest := h.rest hlt hle hnested
          rw [← hnext] at hrest
          exact ih range _ depth (by omega) (by omega) (by omega) hrest

/-! ## A sum that comes back -/

/-- Fuel is left over when the walk gets to an address it reaches. -/
theorem visited_of_reached {start stop : UInt32} {a e : ℕ}
    (h : (layout memory isContainer).Reached start.toNat stop.toNat a e)
    (hle : start.toNat ≤ stop.toNat) :
    ∃ (n : ℕ) (range : Range) (addr depth : UInt32), addr.toNat = a ∧ range.stop.toNat = e ∧
      ∀ fuel, stop.toNat < fuel → (walkFrom (reading memory) isContainer fuel range addr
        depth).visited ⊆
          (walkRange (reading memory) isContainer (fuel + n) ⟨start, stop⟩ 0).visited := by
  induction h with
  | first => exact ⟨0, ⟨start, stop⟩, start, 0, rfl, rfl, fun _ _ => List.Subset.refl _⟩
  | inner hreached hlt hfits hcontainer ih =>
    obtain ⟨n, range, addr, depth, rfl, rfl, hvisited⟩ := ih
    have hfits' := fits_of_le depth hfits
    refine ⟨n + 1, ⟨(entryAt memory addr depth).payloadOffset,
      (entryAt memory addr depth).payloadOffset + (entryAt memory addr depth).len⟩, _, depth + 1,
      hfits'.payload, hfits'.next, fun fuel hfuel => ?_⟩
    rw [← nestedWalk_container fuel depth hcontainer]
    have hturn := hvisited (fuel + 1) (by omega)
    rw [walkFrom_accepted fuel depth hlt (Nat.le_trans (Nat.mod_le _ _) hfits), Nat.add_assoc,
      Nat.add_comm 1 n] at hturn
    exact fun v hv => hturn (Walk.subset_andThen rfl (Walk.subset_andThen_left _ _ hv))
  | rest hreached hlt hfits hnested ih =>
    obtain ⟨n, range, addr, depth, rfl, rfl, hvisited⟩ := ih
    have hfits' := fits_of_le depth hfits
    have hpayload := hfits'.payload
    have hnext := hfits'.next
    have hwithin := (hreached.bounds hle).2.2
    refine ⟨n + 1, range, _, depth, hfits'.next, rfl, fun fuel hfuel => ?_⟩
    have hturn := hvisited (fuel + 1) (by omega)
    rw [walkFrom_accepted fuel depth hlt (Nat.le_trans (Nat.mod_le _ _) hfits), Nat.add_assoc,
      Nat.add_comm 1 n] at hturn
    have hok : (nestedWalk memory isContainer fuel (entryAt memory addr depth)).result =
        some .ok := by
      by_cases hcontainer : (layout memory isContainer).container addr.toNat = true
      · have hinner := hnested hcontainer
        rw [nestedWalk_container fuel depth hcontainer]
        rw [← hpayload, ← hnext] at hinner
        refine walkFrom_of_tiled fuel ⟨_, _⟩ _ _ ?_ hinner
        dsimp only
        omega
      · rw [nestedWalk_leaf fuel depth hcontainer]
    exact fun v hv => hturn (Walk.subset_andThen rfl (Walk.subset_andThen hok hv))

/-- What the guard accepts is visited. -/
theorem unwrapped_of_inside {start stop : UInt32} (hle : start.toNat ≤ stop.toNat)
    (h : ∀ fuel, ∀ v ∈ (walkRange (reading memory) isContainer fuel ⟨start, stop⟩ 0).visited,
      v.Inside) :
    (layout memory isContainer).Unwrapped (2 ^ 32) start.toNat stop.toNat := by
  intro a e hreached hlt hmod
  obtain ⟨n, range, addr, depth, rfl, rfl, hvisited⟩ := visited_of_reached hreached hle
  have hmem : ⟨entryAt memory addr depth, addr, range⟩ ∈ (walkFrom (reading memory) isContainer
      (stop.toNat + 1 + 1) range addr depth).visited := by
    rw [walkFrom_accepted _ depth hlt hmod]
    exact Walk.subset_andThen_left _ _ (List.mem_singleton_self _)
  obtain ⟨hpayload, -, hend⟩ := h _ _ (hvisited _ (by omega) hmem)
  have hsum : (layout memory isContainer).next addr.toNat =
    addr.toNat + tlvEntryHeaderSize + (entryAt memory addr depth).len.toNat := rfl
  rw [hsum, ← hpayload]
  exact hend

/-- A length that takes the cursor back to where it was: the walk visits the entry for ever. -/
theorem walkFrom_stuck (fuel : ℕ) (range : Range) (addr depth : UInt32) (hlt : addr < range.stop)
    (hlen : word memory (addr.toNat + 4) = 0xFFFFFFF8)
    (hleaf : isContainer (word memory addr.toNat) = false) :
    (walkFrom (reading memory) isContainer fuel range addr depth).result = none := by
  induction fuel with
  | zero => rfl
  | succ fuel ih =>
    have hnext : (entryAt memory addr depth).payloadOffset + (entryAt memory addr depth).len =
        addr := by
      have hsum : UInt32.ofNat tlvEntryHeaderSize + 0xFFFFFFF8 = 0 := by decide
      rw [entryAt, hlen, UInt32.add_assoc, hsum, UInt32.add_zero]
    have hnested : nestedWalk memory isContainer fuel (entryAt memory addr depth) =
        ⟨[], some .ok⟩ := if_neg (by rw [entryAt, hleaf]; nofun)
    rw [walkFrom_eq, if_pos hlt]
    dsimp only
    rw [hnext, hnested, if_neg (UInt32.not_lt.mpr (UInt32.le_of_lt hlt))]
    exact ih

/-! ## The walk -/

/-- Safe is the walk of a range in which no length from the flash wraps around. -/
theorem tlv_walk_safe_iff (memory : ℕ → UInt8) (isContainer : UInt32 → Bool) (start len : UInt32)
    (h : start.toNat + len.toNat < 2 ^ 32) : Safe memory isContainer start len ↔
      (layout memory isContainer).Unwrapped (2 ^ 32) start.toNat (start.toNat + len.toNat) := by
  have hstop : (start + len).toNat = start.toNat + len.toNat := by
    rw [UInt32.toNat_add, Nat.mod_eq_of_lt h]
  have hle : start.toNat ≤ (start + len).toNat := by omega
  constructor
  · intro hsafe
    rw [← hstop]
    exact unwrapped_of_inside hle hsafe.inside
  · intro hwrap
    rw [← hstop] at hwrap
    have hends := walkFrom_ends ((start + len).toNat + 1) ⟨start, start + len⟩ start 0
      (Nat.le_refl _) hle (by dsimp only; omega) hwrap
    have hsound := fun fuel =>
      walkFrom_sound fuel ⟨start, start + len⟩ start 0 (Nat.le_refl _) hle hwrap
    obtain ⟨r, hr⟩ := Option.ne_none_iff_exists'.mp hends
    refine ⟨⟨r, _, hr⟩, fun fuel => (hsound fuel).inside, ?_⟩
    rw [← hstop]
    constructor
    · rintro ⟨fuel, hok⟩
      exact (hsound fuel).ok hok
    · intro htiled
      exact ⟨(start + len).toNat + 1, walkFrom_of_tiled _ _ _ _ (by dsimp only; omega) htiled⟩

/-- A container of type 1 that holds an empty entry, and an entry of four bytes behind it. -/
def nestedEntries : ℕ → UInt8
  | 0 => 1
  | 4 => 8
  | 8 => 2
  | 16 => 2
  | 20 => 4
  | _ => 0

theorem tiled_nestedEntries : (layout nestedEntries (· = 1)).Tiled 0 28 := by
  have hinner : (layout nestedEntries (· = 1)).Tiled 8 16 :=
    Layout.Tiled.cons (by decide) (fun h => absurd h (by decide)) (Layout.Tiled.nil 16)
  have hlast : (layout nestedEntries (· = 1)).Tiled 16 28 :=
    Layout.Tiled.cons (by decide) (fun h => absurd h (by decide)) (Layout.Tiled.nil 28)
  exact Layout.Tiled.cons (by decide) (fun _ => hinner) hlast

theorem tlv_walk_safe_nested : (0 : UInt32).toNat + (28 : UInt32).toNat < 2 ^ 32 ∧
    Safe nestedEntries (· = 1) 0 28 ∧
      (tlvWalk (reading nestedEntries) (· = 1) 5 0 28).visited.map (fun v => v.entry) =
        [⟨1, 8, 8, 0⟩, ⟨2, 0, 16, 1⟩, ⟨2, 4, 24, 0⟩] :=
  ⟨by decide, (tlv_walk_safe_iff nestedEntries (· = 1) 0 28 (by decide)).mpr
    tiled_nestedEntries.unwrapped, by decide⟩

/-- Erased flash: the entry at 0 ends at 7, modulo `2 ^ 32`. -/
theorem tlv_walk_unsafe_erased : ¬∀ (memory : ℕ → UInt8) (isContainer : UInt32 → Bool)
    (start len : UInt32), start.toNat + len.toNat < 2 ^ 32 →
      Safe memory isContainer start len := by
  intro h
  have hsafe := h (fun _ => 0xFF) (fun _ => false) 0 8 (by decide)
  have hinside := hsafe.inside 1 ⟨⟨0xFFFFFFFF, 0xFFFFFFFF, 8, 0⟩, 0, ⟨0, 8⟩⟩ (by decide)
  exact absurd hinside.2.2 (by decide)

end BekenCam.Tlv
