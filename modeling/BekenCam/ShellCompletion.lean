import BekenCam.ShellModel

/-!
# Completion

What the tabulator makes of the line, against the longest common beginning of the names that begin
with the text before the cursor.
-/
namespace BekenCam.Console

open Http (ascii)

/-- The longest string that all of them begin with. -/
structure IsCommonPrefix (p : List UInt8) (l : List (List UInt8)) : Prop where
  le : ∀ s ∈ l, p <+: s
  greatest : ∀ q, (∀ s ∈ l, q <+: s) → q <+: p

def matching (names : List (List UInt8)) (left : List UInt8) : List (List UInt8) :=
  names.filter fun name => left.isPrefixOf name

/-- The name is completed as far as all the names that match agree, and a blank is added behind the
only one. -/
structure Completes (s : Shell) (left right : List UInt8) : Prop where
  none : matching s.names left = [] → s.autocomplete.1.input.Holds left right
  some : ∀ p, matching s.names left ≠ [] → IsCommonPrefix p (matching s.names left) →
    s.autocomplete.1.input.Holds
      (p ++ if matching s.names left = [left] then [blank] else []) right

def commonPrefix : List (List UInt8) → List UInt8
  | [] => []
  | first :: others => first.take (Shell.commonLength first others)

/-- When the completion does so. -/
def Completable (names : List (List UInt8)) (left right : List UInt8) : Prop :=
  match matching names left with
  | [] => True
  | [name] =>
    if name = left then left.length + right.length < inputBufferSize - 1
    else right = [] ∧ name.length ≤ inputBufferSize - 1
  | found => (commonPrefix (found.take Shell.maxCandidates)).take
      (inputBufferSize - 1 - right.length) = commonPrefix found

/-! ## Common beginnings -/

theorem IsCommonPrefix.unique {p q : List UInt8} {l : List (List UInt8)} (h : IsCommonPrefix p l)
    (h' : IsCommonPrefix q l) : p = q :=
  (h'.greatest p h.le).eq_of_length_le (h.greatest q h'.le).length_le

theorem eq_cons_of_headD {ch : UInt8} (hch : 0 ≠ ch) {s : List UInt8} (h : s.headD 0 = ch) :
    s = ch :: s.tail := by
  cases s with
  | nil => exact absurd h hch
  | cons a s =>
    rw [List.headD_cons] at h
    rw [h, List.tail_cons]

/-- A byte in front of all of them is in front of what they have in common. -/
theorem IsCommonPrefix.cons {p : List UInt8} {first : List UInt8} {others : List (List UInt8)}
    {ch : UInt8} (hothers : ∀ s ∈ others, s = ch :: s.tail)
    (h : IsCommonPrefix p (first :: others.map List.tail)) :
    IsCommonPrefix (ch :: p) ((ch :: first) :: others) where
  le := by
    rw [List.forall_mem_cons]
    refine ⟨List.cons_prefix_cons.mpr ⟨rfl, h.le first List.mem_cons_self⟩, fun s hs => ?_⟩
    rw [hothers s hs, List.cons_prefix_cons]
    exact ⟨rfl, h.le s.tail (List.mem_cons_of_mem _ (List.mem_map_of_mem hs))⟩
  greatest := by
    intro q hq
    cases q with
    | nil => exact List.nil_prefix
    | cons a q =>
      rw [List.forall_mem_cons, List.cons_prefix_cons] at hq
      obtain ⟨⟨rfl, hfirst⟩, hrest⟩ := hq
      refine List.cons_prefix_cons.mpr ⟨rfl, h.greatest q ?_⟩
      rw [List.forall_mem_cons]
      refine ⟨hfirst, fun t ht => ?_⟩
      obtain ⟨s, hs, rfl⟩ := List.mem_map.mp ht
      have hprefix := hrest s hs
      rw [hothers s hs, List.cons_prefix_cons] at hprefix
      exact hprefix.2

theorem isCommonPrefix_take {first : List UInt8} (hfirst : 0 ∉ first)
    (others : List (List UInt8)) :
    IsCommonPrefix (first.take (Shell.commonLength first others)) (first :: others) := by
  induction first generalizing others with
  | nil => exact ⟨fun s _ => List.nil_prefix, fun q hq => hq [] List.mem_cons_self⟩
  | cons ch first ih =>
    rw [List.mem_cons, not_or] at hfirst
    rw [Shell.commonLength]
    split_ifs with hall
    · rw [List.take_succ_cons]
      exact (ih hfirst.2 _).cons fun s hs => eq_cons_of_headD hfirst.1 (hall s hs)
    · rw [List.take_zero]
      refine ⟨fun s _ => List.nil_prefix, fun q hq => ?_⟩
      cases q with
      | nil => exact List.nil_prefix
      | cons a q =>
        -- Some other name begins with another byte, or is empty.
        refine absurd (fun other hother => ?_) hall
        have ha := (List.cons_prefix_cons.mp (hq _ List.mem_cons_self)).1
        obtain ⟨tail, htail⟩ := hq other (List.mem_cons_of_mem _ hother)
        rw [← htail, List.cons_append, List.headD_cons, ha]

theorem commonLength_le (first : List UInt8) (others : List (List UInt8)) :
    Shell.commonLength first others ≤ first.length := by
  induction first generalizing others with
  | nil => exact le_rfl
  | cons ch first ih =>
    rw [Shell.commonLength]
    split_ifs
    · exact Nat.succ_le_succ (ih _)
    · exact Nat.zero_le _

theorem isCommonPrefix_commonPrefix {l : List (List UInt8)} (hne : l ≠ [])
    (hended : ∀ s ∈ l, 0 ∉ s) : IsCommonPrefix (commonPrefix l) l := by
  obtain ⟨first, others, rfl⟩ := List.exists_cons_of_ne_nil hne
  exact isCommonPrefix_take (hended first List.mem_cons_self) others

theorem prefixMatch_ge {left tail name : List UInt8} (hname : 0 ∉ name) :
    Shell.prefixMatch (left ++ tail) name ≥ left.length ↔ left <+: name := by
  induction left generalizing name with
  | nil => exact ⟨fun _ => List.nil_prefix, fun _ => Nat.zero_le _⟩
  | cons a left ih =>
    cases name with
    | nil => simp [Shell.prefixMatch]
    | cons b name =>
      rw [List.mem_cons, not_or] at hname
      rw [List.cons_append, Shell.prefixMatch, List.cons_prefix_cons]
      split_ifs with h
      · rw [← ih hname.2, List.length_cons]
        simp only [h.2.2, true_and]
        omega
      · constructor
        · intro hlen
          rw [List.length_cons] at hlen
          omega
        · rintro ⟨rfl, -⟩
          exact absurd ⟨Ne.symm hname.1, Ne.symm hname.1, rfl⟩ h

/-! ## What the tabulator does -/

theorem Input.Holds.iff_eq {i : Input} {left right left' right' : List UInt8}
    (h : i.Holds left right) : i.Holds left' right' ↔ left = left' ∧ right = right' :=
  ⟨h.unique, fun heq => heq.1 ▸ heq.2 ▸ h⟩

theorem getD_append_length {left rest : List UInt8} (hrest : 0 ∉ rest) :
    (left ++ rest).getD left.length 0 = 0 ↔ rest = [] := by
  rw [List.getD_append_right _ _ _ _ le_rfl, Nat.sub_self]
  cases rest with
  | nil => simp
  | cons a rest =>
    rw [List.mem_cons, not_or] at hrest
    rw [List.getD_cons_zero]
    exact ⟨fun ha => absurd ha.symm hrest.1, fun hnil => absurd hnil (List.cons_ne_nil _ _)⟩

theorem getD_last (left tail : List UInt8) (hne : left ≠ []) :
    left.getLast? = some ((left ++ tail).getD (left.length - 1) 0) := by
  have hlen : left.length - 1 < left.length := by
    have hpos := List.length_pos_iff.mpr hne
    omega
  rw [List.getD_append _ _ _ _ hlen, List.getLast?_eq_getElem?, List.getD_eq_getElem _ _ hlen,
    List.getElem?_eq_getElem hlen]

namespace Shell

variable (s : Shell) {left right : List UInt8}

theorem names_ended {name : List UInt8} (h : name ∈ s.names) : 0 ∉ name := by
  obtain ⟨handler, -, rfl⟩ := List.mem_map.mp h
  exact handler.ended

theorem mem_matching {name : List UInt8} (h : name ∈ matching s.names left) :
    left <+: name ∧ 0 ∉ name := by
  obtain ⟨hname, hleft⟩ := List.mem_filter.mp h
  exact ⟨List.isPrefixOf_iff_prefix.mp hleft, s.names_ended hname⟩

variable {s}

theorem candidates_eq (h : s.input.Holds left right) :
    s.candidates = (matching s.names left).take maxCandidates := by
  obtain ⟨rest, htext⟩ := h.text
  unfold candidates matching
  rw [htext, Input.getOffset, h.cursor]
  congr 1
  refine List.filter_congr fun name hname => ?_
  rw [decide_eq_decide.mpr (prefixMatch_ge (s.names_ended hname)), Bool.eq_iff_iff,
    decide_eq_true_iff, List.isPrefixOf_iff_prefix]

variable (h : s.input.Holds left right) (hne : left ≠ []) (hblank : left.getLast? ≠ some blank)

include h hne hblank in
/-- Behind a letter the tabulator looks for candidates. -/
theorem autocomplete_guard :
    ¬(s.input.getOffset = 0 ∨ s.input.buffer.getD (s.input.getOffset - 1) 0 = blank) := by
  obtain ⟨rest, htext⟩ := h.text
  rw [Input.getOffset, h.cursor, List.length_eq_zero_iff, htext]
  rintro (hnil | hlast)
  · exact hne hnil
  · exact hblank (hlast ▸ getD_last left _ hne)

include h in
theorem autocomplete_blank (hstart : left = [] ∨ left.getLast? = some blank) :
    s.autocomplete = (s, []) := by
  obtain ⟨rest, htext⟩ := h.text
  refine if_pos ?_
  rw [Input.getOffset, h.cursor, List.length_eq_zero_iff, htext]
  by_cases hnil : left = []
  · exact .inl hnil
  · have hlast := hstart.resolve_left hnil
    rw [getD_last left _ hnil] at hlast
    exact .inr (Option.some.inj hlast)

include h hne hblank in
theorem autocomplete_none (hnone : matching s.names left = []) : s.autocomplete = (s, []) := by
  unfold autocomplete
  rw [if_neg (autocomplete_guard h hne hblank), candidates_eq h, hnone]
  rfl

include h hne hblank in
/-- The only name that matches is the text itself: a blank goes in, if there is room. -/
theorem autocomplete_self (hself : matching s.names left = [left]) :
    s.autocomplete = (s.putAll [blank], [blank]) := by
  have hended := (s.mem_matching (hself ▸ List.mem_singleton_self left)).2
  have hend : left.getD left.length 0 = 0 := by
    rw [List.getD_eq_default _ _ le_rfl]
  unfold autocomplete
  rw [if_neg (autocomplete_guard h hne hblank), candidates_eq h, hself, Input.getOffset, h.cursor]
  exact if_pos hend

include h hne hblank in
/-- The only name that matches replaces the line. -/
theorem autocomplete_one {name : List UInt8} (hone : matching s.names left = [name])
    (hmore : name ≠ left) : s.autocomplete = s.replaceCommand (some name) := by
  obtain ⟨⟨rest, rfl⟩, hended⟩ := s.mem_matching (hone ▸ List.mem_singleton_self name)
  have hrest : rest ≠ [] := fun hnil => hmore (by rw [hnil, List.append_nil])
  have hend : ¬(left ++ rest).getD left.length 0 = 0 := by
    rw [getD_append_length fun hzero => hended (List.mem_append_right _ hzero)]
    exact hrest
  unfold autocomplete
  rw [if_neg (autocomplete_guard h hne hblank), candidates_eq h, hone, Input.getOffset, h.cursor]
  exact if_neg hend

/-- The candidates that the loop keeps. -/
def found (s : Shell) (left : List UInt8) : List (List UInt8) :=
  (matching s.names left).take maxCandidates

theorem mem_found {name : List UInt8} (hname : name ∈ s.found left) : left <+: name ∧ 0 ∉ name :=
  s.mem_matching (List.mem_of_mem_take hname)

theorem found_ne_nil (hmany : 2 ≤ (matching s.names left).length) : s.found left ≠ [] := by
  intro hnil
  have hlen := congrArg List.length hnil
  rw [found, List.length_take, List.length_nil, maxCandidates] at hlen
  omega

theorem left_prefix_common (hmany : 2 ≤ (matching s.names left).length) :
    left <+: commonPrefix (s.found left) :=
  (isCommonPrefix_commonPrefix (found_ne_nil hmany) fun _ hname => (mem_found hname).2).greatest
    left fun _ hname => (mem_found hname).1

include h hne hblank in
/-- Several names match: what the candidates have in common is put behind the text, and where that
is nothing they are listed. -/
theorem autocomplete_many (hmany : 2 ≤ (matching s.names left).length) :
    s.autocomplete =
      if commonPrefix (s.found left) ≠ left then
        ({ s.putAll ((commonPrefix (s.found left)).drop left.length) with
          autocompleteStreak := 0 }, (commonPrefix (s.found left)).drop left.length)
      else if s.autocompleteStreak > 1 then (s, [])
      else (s, listing (s.found left) ++ start ++ s.input.whole) := by
  have hleft := left_prefix_common hmany
  have hcandidates := candidates_eq h
  have hlen : (s.found left).length = min maxCandidates (matching s.names left).length :=
    List.length_take
  change s.candidates = s.found left at hcandidates
  generalize s.found left = found at hleft hcandidates hlen
  obtain ⟨first, second, others, rfl⟩ : ∃ first second others, found = first :: second :: others := by
    rw [maxCandidates] at hlen
    match found with
    | first :: second :: others => exact ⟨first, second, others, rfl⟩
    | [_] => rw [List.length_singleton] at hlen; omega
    | [] => rw [List.length_nil] at hlen; omega
  have hcommon : commonLength first (second :: others) =
      (commonPrefix (first :: second :: others)).length := by
    rw [commonPrefix, List.length_take, min_eq_left (commonLength_le _ _)]
  have htext : slice first left.length (commonLength first (second :: others) - left.length) =
      (commonPrefix (first :: second :: others)).drop left.length := by
    rw [commonPrefix, List.drop_take, slice]
  have hlonger : commonLength first (second :: others) > left.length ↔
      commonPrefix (first :: second :: others) ≠ left := by
    rw [hcommon]
    constructor
    · rintro hlen heq
      rw [heq] at hlen
      omega
    · intro hother
      by_contra hshort
      exact hother (hleft.eq_of_length_le (by omega)).symm
  unfold autocomplete
  rw [if_neg (autocomplete_guard h hne hblank), hcandidates, Input.getOffset, h.cursor]
  simp only [htext, hlonger]

/-! ## When the completion is right -/

include h hne hblank in
/-- The line after the tabulator when several names match. -/
theorem holds_many (hmany : 2 ≤ (matching s.names left).length) :
    s.autocomplete.1.input.Holds
      ((commonPrefix (s.found left)).take (inputBufferSize - 1 - right.length)) right := by
  have hsize := h.size_lt
  obtain ⟨text, htext⟩ := left_prefix_common hmany
  rw [autocomplete_many h hne hblank hmany, ← htext, List.drop_left]
  have hroom : left.length ≤ inputBufferSize - 1 - right.length := by omega
  have hcut : (left ++ text).take (inputBufferSize - 1 - right.length) =
      left ++ text.take (inputBufferSize - 1 - left.length - right.length) := by
    rw [List.take_append, List.take_of_length_le hroom, Nat.sub_right_comm]
  rw [hcut]
  split_ifs with hother
  · exact h.foldl_put text
  all_goals
    rw [not_not, List.append_right_eq_self] at hother
    rw [hother, List.take_nil, List.append_nil]
    exact h

include h in
theorem holds_putAll (text : List UInt8) : (s.putAll text).input.Holds (left ++ text) right ↔
    text.length ≤ inputBufferSize - 1 - left.length - right.length := by
  rw [putAll, (h.foldl_put text).iff_eq, List.append_cancel_left_eq, List.take_eq_self_iff]
  exact and_iff_left rfl

theorem holds_replaceCommand (s : Shell) (name right : List UInt8) :
    (s.replaceCommand (some name)).1.input.Holds name right ↔
      right = [] ∧ name.length ≤ inputBufferSize - 1 := by
  have hline := Input.holds_fresh.foldl_put name
  rw [List.nil_append, List.length_nil, Nat.sub_zero] at hline
  change (name.foldl Input.put Input.fresh).Holds name right ↔ _
  rw [hline.iff_eq, List.take_eq_self_iff]
  exact ⟨fun heq => ⟨heq.2.symm, heq.1⟩, fun heq => ⟨heq.2, heq.1.symm⟩⟩

/-- What the names have in common is one string. -/
theorem completes_iff (hsome : matching s.names left ≠ []) :
    Completes s left right ↔ s.autocomplete.1.input.Holds
      (commonPrefix (matching s.names left) ++
        if matching s.names left = [left] then [blank] else []) right := by
  have hcommon := isCommonPrefix_commonPrefix hsome fun _ hname => (s.mem_matching hname).2
  constructor
  · intro hcompletes
    exact hcompletes.some _ hsome hcommon
  · intro hline
    refine ⟨fun hnone => absurd hnone hsome, fun p _ hp => ?_⟩
    rwa [hp.unique hcommon]

theorem commonPrefix_singleton (name : List UInt8) (hended : 0 ∉ name) :
    commonPrefix [name] = name :=
  (isCommonPrefix_commonPrefix (List.cons_ne_nil _ _) (by simpa using hended)).unique
    ⟨by simp, fun q hq => hq name (List.mem_singleton_self name)⟩

include h hne hblank in
/-- The tabulator completes a line exactly when nothing matches, when the text is the only match and
there is room for a blank, when the only match is the whole line, and when the candidates that the
loop keeps have as much in common as all the names that match and the line has room for it. -/
theorem autocomplete_iff : Completes s left right ↔ Completable s.names left right := by
  unfold Completable
  cases hfound : matching s.names left with
  | nil =>
    refine ⟨fun _ => trivial, fun _ => ⟨fun _ => ?_, fun _ hsome => absurd hfound hsome⟩⟩
    rwa [autocomplete_none h hne hblank hfound]
  | cons first rest =>
    have hsome : matching s.names left ≠ [] := hfound ▸ List.cons_ne_nil _ _
    rw [completes_iff hsome]
    cases rest with
    | nil =>
      have hended := (s.mem_matching (hfound ▸ List.mem_singleton_self first)).2
      rw [hfound, commonPrefix_singleton first hended]
      dsimp only
      split_ifs with hlist hself hself
      · rw [hself] at hfound ⊢
        rw [autocomplete_self h hne hblank hfound, holds_putAll h, List.length_singleton]
        omega
      · exact absurd (List.cons.inj hlist).1 hself
      · exact absurd (congrArg (fun name => [name]) hself) hlist
      · rw [autocomplete_one h hne hblank hfound hself, List.append_nil, holds_replaceCommand]
    | cons second others =>
      have hmany : 2 ≤ (matching s.names left).length := by
        rw [hfound, List.length_cons, List.length_cons]
        omega
      have hother : ¬matching s.names left = [left] := by
        rw [hfound]
        simp
      rw [if_neg hother, List.append_nil, (holds_many h hne hblank hmany).iff_eq, found, hfound]
      exact and_iff_left rfl

end Shell

/-! ## A table with one handler -/

def helpHandler : Handler := ⟨ascii "help", by decide, fun _ => []⟩

/-- The letters `he` are typed before the cursor and the others behind it. -/
def helpShell (left right : List UInt8) : Shell :=
  { (Shell.create [helpHandler]).putAll (left ++ right) with
    input := ((left ++ right).foldl Input.put Input.fresh).setOffset left.length }

theorem holds_helpShell {left right : List UInt8}
    (h : left.length + right.length < inputBufferSize) :
    (helpShell left right).input.Holds left right := by
  have hline := Input.holds_fresh.foldl_put (left ++ right)
  obtain ⟨rest, htext⟩ := hline.text
  have hall : (left ++ right).take (inputBufferSize - 1) = left ++ right :=
    List.take_of_length_le (by rw [List.length_append]; omega)
  have hsize := hline.size
  simp only [List.length_nil, Nat.sub_zero, hall, List.nil_append, Nat.add_zero,
    List.length_append] at htext hsize
  exact ⟨hline.length, ⟨rest, by rw [← List.append_assoc]; exact htext⟩, hsize, rfl, hline.intact⟩

theorem autocomplete_iff_help : Completes (helpShell (ascii "he") []) (ascii "he") [] := by
  refine (Shell.autocomplete_iff (holds_helpShell (by decide)) (by decide) (by decide)).mpr ?_
  have hone : matching (helpShell (ascii "he") []).names (ascii "he") = [ascii "help"] := by decide
  rw [Completable, hone]
  dsimp only
  rw [if_neg (by decide)]
  exact ⟨rfl, by decide⟩

/-- In `he|x` the name replaces the whole line, and `x` is lost. -/
theorem autocomplete_not_completes :
    ¬∀ (s : Shell) (left right : List UInt8), s.input.Holds left right → left ≠ [] →
      left.getLast? ≠ some blank → Completes s left right := by
  intro hall
  have hline : (helpShell (ascii "he") (ascii "x")).input.Holds (ascii "he") (ascii "x") :=
    holds_helpShell (by decide)
  have hone : matching (helpShell (ascii "he") (ascii "x")).names (ascii "he") = [ascii "help"] := by
    decide
  have hcompletes := hall _ _ _ hline (by decide) (by decide)
  rw [Shell.completes_iff (by rw [hone]; decide), hone, if_neg (by decide), List.append_nil,
    Shell.autocomplete_one hline (by decide) (by decide) hone (by decide),
    Shell.commonPrefix_singleton _ (by decide), Shell.holds_replaceCommand] at hcompletes
  exact absurd hcompletes.1 (by decide)

end BekenCam.Console
