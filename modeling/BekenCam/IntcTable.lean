import BekenCam.IntcModel
import Mathlib.Data.Set.Card

/-!
# The interrupt table holds what is registered

A bit is held for a function from the event that registers it to the next one that unregisters it.
Over any history of events the table has the functions that hold bits, each once and with these
bits, in the order in which they came, and the mask beside the rows is their OR. What a pass finds
uncovered is therefore what no function holds.
-/
namespace BekenCam.Intc

variable {η σ : Type*} {events front : List (Event η)} {e : Event η} {f g : η} {i : ℕ}

/-- The bit `i` was registered for `f` and not unregistered since. -/
def Held (events : List (Event η)) (f : η) (i : ℕ) : Prop :=
  ∃ before source after, events = before ++ .register source f :: after ∧
    source.getLsbD i = true ∧ ∀ dropped, .unregister dropped f ∈ after → dropped.getLsbD i = false

def Live (events : List (Event η)) (f : η) : Prop := ∃ i, Held events f i

/-- `f` is live since a time when `g` was not. -/
def LiveBefore (events : List (Event η)) (f g : η) : Prop :=
  ∃ front, front <+: events ∧ ¬ Live front g ∧
    ∀ mid, front <+: mid → mid <+: events → Live mid f

/-- At every time of the history at most `maxHandlers` functions are live. -/
def FewLive (events : List (Event η)) : Prop :=
  ∀ front, front <+: events → {f | Live front f}.encard ≤ maxHandlers

/-- Each live function has one row, with the bits it holds; the rows are in registration order. -/
structure Rows (events : List (Event η)) (rows : List (InterruptHandler η)) : Prop where
  once : (rows.map (·.handler)).Nodup
  live : ∀ f, f ∈ rows.map (·.handler) ↔ Live events f
  source : ∀ row ∈ rows, ∀ i, row.source.getLsbD i = true ↔ Held events row.handler i
  nonzero : ∀ row ∈ rows, row.source ≠ 0
  order : (rows.map (·.handler)).Pairwise (LiveBefore events)

structure Table (events : List (Event η)) (c : HandlersCollection η) : Prop where
  rows : Rows events c.handlers
  mask : ∀ i, c.handledMask.getLsbD i = true ↔ ∃ row ∈ c.handlers, row.source.getLsbD i = true

/-! ## Bits of a mask -/

theorem exists_bit {mask : BitVec 32} (h : mask ≠ 0) : ∃ i, mask.getLsbD i = true := by
  by_contra hnone
  refine h (BitVec.eq_of_getLsbD_eq fun i _ => ?_)
  have hi : mask.getLsbD i = false := by
    by_contra hbit
    exact hnone ⟨i, by simpa using hbit⟩
  rw [hi]
  simp

theorem getLsbD_clear {mask dropped : BitVec 32} :
    (mask &&& ~~~dropped).getLsbD i = true ↔
      mask.getLsbD i = true ∧ dropped.getLsbD i = false := by
  have hlt : mask.getLsbD i = true → i < 32 := BitVec.lt_of_getLsbD
  simp only [BitVec.getLsbD_and, BitVec.getLsbD_not, Bool.and_eq_true, decide_eq_true_eq,
    Bool.not_eq_true']
  constructor
  · rintro ⟨hmask, -, hdropped⟩
    exact ⟨hmask, hdropped⟩
  · rintro ⟨hmask, hdropped⟩
    exact ⟨hmask, hlt hmask, hdropped⟩

theorem clear_zero (mask : BitVec 32) : mask &&& ~~~0 = mask := BitVec.and_allOnes

theorem orSources_concat (rows : List (InterruptHandler η)) (row : InterruptHandler η) :
    orSources (rows ++ [row]) = orSources rows ||| row.source := by
  simp [orSources]

theorem getLsbD_orSources (rows : List (InterruptHandler η)) :
    (orSources rows).getLsbD i = true ↔ ∃ row ∈ rows, row.source.getLsbD i = true := by
  induction rows using List.reverseRecOn with
  | nil => simp [orSources]
  | append_singleton rows row ih =>
    rw [orSources_concat, BitVec.getLsbD_or, Bool.or_eq_true, ih]
    simp [or_and_right, exists_or]

/-! ## What is held after one more event -/

theorem held_concat :
    Held (events ++ [e]) f i ↔
      (∃ source, e = .register source f ∧ source.getLsbD i = true) ∨
        Held events f i ∧ ∀ dropped, e = .unregister dropped f → dropped.getLsbD i = false := by
  constructor
  · rintro ⟨before, source, after, heq, hbit, hkept⟩
    rcases List.eq_nil_or_concat after with rfl | ⟨after, last, rfl⟩
    · obtain ⟨-, hlast⟩ := List.append_inj' heq rfl
      obtain rfl : e = .register source f := by simpa using hlast
      exact Or.inl ⟨source, rfl, hbit⟩
    · have hsplit : events ++ [e] = (before ++ .register source f :: after) ++ [last] := by
        simpa using heq
      obtain ⟨rfl, hlast⟩ := List.append_inj' hsplit rfl
      obtain rfl : e = last := by simpa using hlast
      refine Or.inr ⟨⟨before, source, after, rfl, hbit, fun dropped hmem => ?_⟩, ?_⟩
      · exact hkept dropped (by simp [hmem])
      · intro dropped hdropped
        exact hkept dropped (by simp [hdropped])
  · rintro (⟨source, rfl, hbit⟩ | ⟨⟨before, source, after, rfl, hbit, hkept⟩, hlast⟩)
    · exact ⟨events, source, [], rfl, hbit, by simp⟩
    · refine ⟨before, source, after ++ [e], by simp, hbit, fun dropped hmem => ?_⟩
      rcases List.mem_append.mp hmem with hmem | hmem
      · exact hkept dropped hmem
      · exact hlast dropped (List.mem_singleton.mp hmem).symm

theorem not_held_nil : ¬ Held [] f i := by
  rintro ⟨before, source, after, heq, -⟩
  simp at heq

/-- The function an event registers or unregisters. -/
def Event.func? : Event η → Option η
  | .register _ f => some f
  | .unregister _ f => some f
  | _ => none

theorem held_concat_of_ne (h : e.func? ≠ some f) : Held (events ++ [e]) f i ↔ Held events f i := by
  rw [held_concat]
  constructor
  · rintro (⟨source, rfl, -⟩ | ⟨hheld, -⟩)
    · exact absurd rfl h
    · exact hheld
  · intro hheld
    refine Or.inr ⟨hheld, ?_⟩
    rintro dropped rfl
    exact absurd rfl h

theorem live_concat_of_ne (h : e.func? ≠ some f) : Live (events ++ [e]) f ↔ Live events f :=
  exists_congr fun _ => held_concat_of_ne h

theorem LiveBefore.concat (h : LiveBefore events f g) (hlive : Live (events ++ [e]) f) :
    LiveBefore (events ++ [e]) f g := by
  obtain ⟨front, hfront, hnot, hsince⟩ := h
  refine ⟨front, hfront.trans (List.prefix_append _ _), hnot, fun mid hmid hle => ?_⟩
  rcases List.prefix_concat_iff.mp hle with rfl | hle
  · exact hlive
  · exact hsince mid hmid hle

theorem liveBefore_new (hf : Live events f) (hf' : Live (events ++ [e]) f) (hg : ¬ Live events g) :
    LiveBefore (events ++ [e]) f g := by
  refine ⟨events, List.prefix_append _ _, hg, fun mid hmid hle => ?_⟩
  rcases List.prefix_concat_iff.mp hle with rfl | hle
  · exact hf'
  · rwa [hle.eq_of_length (le_antisymm hle.length_le hmid.length_le)]

/-! ## Rows -/

section Rows

variable {rows : List (InterruptHandler η)} {source : BitVec 32} {k : ℕ}

theorem rows_split (hk : k < rows.length) :
    rows = rows.take k ++ rows[k] :: rows.drop (k + 1) := by
  rw [List.getElem_cons_drop, List.take_append_drop]

theorem modify_split (hk : k < rows.length) (f : InterruptHandler η → InterruptHandler η) :
    rows.modify k f = rows.take k ++ f rows[k] :: rows.drop (k + 1) :=
  List.modify_eq_take_cons_drop hk

theorem map_handler_modify {f : InterruptHandler η → InterruptHandler η}
    (hf : ∀ row, (f row).handler = row.handler) :
    (rows.modify k f).map (·.handler) = rows.map (·.handler) := by
  refine List.ext_getElem (by simp) fun j _ _ => ?_
  simp only [List.getElem_map, List.getElem_modify]
  split
  · exact hf _
  · rfl

/-- A row of a function that holds bits is not empty. -/
theorem Rows.of_live (once : (rows.map (·.handler)).Nodup)
    (live : ∀ f, f ∈ rows.map (·.handler) ↔ Live events f)
    (source : ∀ row ∈ rows, ∀ i, row.source.getLsbD i = true ↔ Held events row.handler i)
    (order : (rows.map (·.handler)).Pairwise (LiveBefore events)) : Rows events rows where
  once := once
  live := live
  source := source
  nonzero row hrow hzero := by
    obtain ⟨i, hheld⟩ := (live row.handler).mp (List.mem_map_of_mem hrow)
    have hbit := (source row hrow i).mpr hheld
    simp [hzero] at hbit
  order := order

/-- A bit stands in some row exactly when some function holds it. -/
theorem Rows.covered (h : Rows events rows) :
    (∃ row ∈ rows, row.source.getLsbD i = true) ↔ ∃ f, Held events f i := by
  constructor
  · rintro ⟨row, hrow, hbit⟩
    exact ⟨row.handler, (h.source row hrow i).mp hbit⟩
  · rintro ⟨f, hheld⟩
    obtain ⟨row, hrow, rfl⟩ := List.mem_map.mp ((h.live f).mpr ⟨i, hheld⟩)
    exact ⟨row, hrow, (h.source row hrow i).mpr hheld⟩

theorem Rows.other_ne (h : Rows events rows) (hk : k < rows.length) {row : InterruptHandler η}
    (hrow : row ∈ rows.take k ∨ row ∈ rows.drop (k + 1)) : row.handler ≠ rows[k].handler := by
  have hnodup := h.once
  rw [rows_split hk, List.map_append, List.map_cons, List.nodup_middle, List.nodup_cons] at hnodup
  intro heq
  refine hnodup.1 (heq ▸ ?_)
  rcases hrow with hrow | hrow
  · exact List.mem_append_left _ (List.mem_map_of_mem hrow)
  · exact List.mem_append_right _ (List.mem_map_of_mem hrow)

/-- The rows of the other functions stay right after an event of one function. -/
theorem Rows.source_other (h : Rows events rows) (hk : k < rows.length)
    (he : e.func? = some rows[k].handler) {row : InterruptHandler η}
    (hrow : row ∈ rows.take k ∨ row ∈ rows.drop (k + 1)) (i : ℕ) :
    row.source.getLsbD i = true ↔ Held (events ++ [e]) row.handler i := by
  have hne := h.other_ne hk hrow
  have hmem : row ∈ rows := hrow.elim List.mem_of_mem_take List.mem_of_mem_drop
  rw [held_concat_of_ne (by simpa [he] using hne.symm)]
  exact h.source row hmem i

theorem Rows.order_concat (h : Rows events rows)
    (hlive : ∀ f ∈ rows.map (·.handler), Live (events ++ [e]) f) :
    (rows.map (·.handler)).Pairwise (LiveBefore (events ++ [e])) :=
  h.order.imp_of_mem fun hf _ hbefore => hbefore.concat (hlive _ hf)

/-- An event that changes no bit leaves the rows right. -/
theorem Rows.same (h : Rows events rows)
    (heq : ∀ f i, Held (events ++ [e]) f i ↔ Held events f i) : Rows (events ++ [e]) rows := by
  have hlive : ∀ f, f ∈ rows.map (·.handler) ↔ Live (events ++ [e]) f := by
    intro f
    rw [h.live f]
    exact (exists_congr fun i => heq f i).symm
  refine Rows.of_live h.once hlive (fun row hrow i => ?_) (h.order_concat fun f => (hlive f).mp)
  rw [heq]
  exact h.source row hrow i

/-- The row of the function is changed to the bits it holds now. -/
theorem Rows.modify (h : Rows events rows) (hk : k < rows.length)
    {change : InterruptHandler η → InterruptHandler η}
    (hname : ∀ row, (change row).handler = row.handler) (he : e.func? = some rows[k].handler)
    (hbits : ∀ i, (change rows[k]).source.getLsbD i = true ↔ Held (events ++ [e]) rows[k].handler i)
    (hlive : Live (events ++ [e]) rows[k].handler) : Rows (events ++ [e]) (rows.modify k change) := by
  have hlive' : ∀ f, f ∈ rows.map (·.handler) ↔ Live (events ++ [e]) f := by
    intro f
    by_cases hf : f = rows[k].handler
    · subst hf
      exact iff_of_true (List.mem_map_of_mem (List.getElem_mem hk)) hlive
    · rw [h.live f, live_concat_of_ne (by simpa [he] using Ne.symm hf)]
  refine Rows.of_live ?_ ?_ (fun row hrow i => ?_) ?_
  · rw [map_handler_modify hname]
    exact h.once
  · rw [map_handler_modify hname]
    exact hlive'
  · rw [modify_split hk, List.mem_append, List.mem_cons] at hrow
    rcases hrow with hrow | rfl | hrow
    · exact h.source_other hk he (Or.inl hrow) i
    · rw [hname]
      exact hbits i
    · exact h.source_other hk he (Or.inr hrow) i
  · rw [map_handler_modify hname]
    exact h.order_concat fun f => (hlive' f).mp

/-- The row goes when its function holds nothing any more. -/
theorem Rows.eraseIdx (h : Rows events rows) (hk : k < rows.length)
    (he : e.func? = some rows[k].handler) (hdead : ¬ Live (events ++ [e]) rows[k].handler) :
    Rows (events ++ [e]) (rows.eraseIdx k) := by
  have hsplit : rows.eraseIdx k = rows.take k ++ rows.drop (k + 1) :=
    List.eraseIdx_eq_take_drop_succ rows k
  have hsub : ((rows.eraseIdx k).map (·.handler)).Sublist (rows.map (·.handler)) :=
    (List.eraseIdx_sublist rows k).map _
  have hmem : ∀ row, row ∈ rows.eraseIdx k ↔ row ∈ rows.take k ∨ row ∈ rows.drop (k + 1) := by
    intro row
    rw [hsplit, List.mem_append]
  have hlive : ∀ f, f ∈ (rows.eraseIdx k).map (·.handler) ↔ Live (events ++ [e]) f := by
    intro f
    by_cases hf : f = rows[k].handler
    · refine iff_of_false ?_ (hf ▸ hdead)
      intro hin
      obtain ⟨row, hrow, hname⟩ := List.mem_map.mp hin
      exact h.other_ne hk ((hmem row).mp hrow) (hname.trans hf)
    · rw [live_concat_of_ne (by simpa [he] using Ne.symm hf), ← h.live f]
      refine ⟨fun hin => hsub.subset hin, fun hin => ?_⟩
      obtain ⟨row, hrow, rfl⟩ := List.mem_map.mp hin
      rw [rows_split hk, List.mem_append, List.mem_cons] at hrow
      refine List.mem_map_of_mem ((hmem row).mpr ?_)
      rcases hrow with hrow | rfl | hrow
      · exact Or.inl hrow
      · exact absurd rfl hf
      · exact Or.inr hrow
  refine Rows.of_live (h.once.sublist hsub) hlive (fun row hrow i => ?_) ?_
  · exact h.source_other hk he ((hmem row).mp hrow) i
  · exact (h.order.sublist hsub).imp_of_mem fun hf _ hbefore => hbefore.concat ((hlive _).mp hf)

/-- A function that was not live gets the last row. -/
theorem Rows.concat (h : Rows events rows) {row : InterruptHandler η}
    (he : e.func? = some row.handler) (hnew : ¬ Live events row.handler)
    (hbits : ∀ i, row.source.getLsbD i = true ↔ Held (events ++ [e]) row.handler i)
    (hlive : Live (events ++ [e]) row.handler) : Rows (events ++ [e]) (rows ++ [row]) := by
  have hfresh : row.handler ∉ rows.map (·.handler) := fun hin => hnew ((h.live _).mp hin)
  have hother : ∀ f ∈ rows.map (·.handler), e.func? ≠ some f := by
    intro f hf hname
    rw [he, Option.some.injEq] at hname
    exact hfresh (hname ▸ hf)
  have hkept : ∀ f ∈ rows.map (·.handler), Live (events ++ [e]) f := fun f hf =>
    (live_concat_of_ne (hother f hf)).mpr ((h.live f).mp hf)
  have hnames : (rows ++ [row]).map (·.handler) = rows.map (·.handler) ++ [row.handler] := by simp
  refine Rows.of_live ?_ (fun f => ?_) (fun r hr i => ?_) ?_
  · rw [hnames, ← List.concat_eq_append]
    exact h.once.concat hfresh
  · rw [hnames, List.mem_append, List.mem_singleton]
    by_cases hf : f = row.handler
    · subst hf
      exact iff_of_true (Or.inr rfl) hlive
    · rw [live_concat_of_ne (by simpa [he] using Ne.symm hf), ← h.live f]
      exact or_iff_left hf
  · rcases List.mem_append.mp hr with hr | hr
    · rw [held_concat_of_ne (hother _ (List.mem_map_of_mem hr))]
      exact h.source r hr i
    · obtain rfl := List.mem_singleton.mp hr
      exact hbits i
  · rw [hnames, List.pairwise_append]
    refine ⟨h.order_concat hkept, List.pairwise_singleton _ _, fun f hf g hg => ?_⟩
    obtain rfl := List.mem_singleton.mp hg
    exact liveBefore_new ((h.live f).mp hf) (hkept f hf) hnew

variable [DecidableEq η]

theorem findDelete_concat (row : InterruptHandler η) :
    findDelete (rows ++ [row]) source f =
      if row.handler = f then some (rows.length, row.source &&& ~~~source == 0)
      else findDelete rows source f := by
  simp [findDelete, List.zipIdx_append]

theorem findDelete_none (h : findDelete rows source f = none) :
    f ∉ rows.map (·.handler) := by
  induction rows using List.reverseRecOn with
  | nil => simp
  | append_singleton rows row ih =>
    rw [findDelete_concat] at h
    split at h
    · cases h
    · next hne =>
      have hbefore := ih h
      simp only [List.map_append, List.map_cons, List.map_nil, List.mem_append,
        List.mem_singleton]
      rintro (hmem | rfl)
      · exact hbefore hmem
      · exact hne rfl

theorem findDelete_some {delete : Bool} (h : findDelete rows source f = some (k, delete)) :
    ∃ hk : k < rows.length,
      rows[k].handler = f ∧ delete = (rows[k].source &&& ~~~source == 0) := by
  induction rows using List.reverseRecOn with
  | nil => simp [findDelete] at h
  | append_singleton rows row ih =>
    rw [findDelete_concat] at h
    split at h
    · next heq =>
      obtain ⟨rfl, rfl⟩ : rows.length = k ∧ (row.source &&& ~~~source == 0) = delete := by
        simpa using h
      refine ⟨by simp, ?_⟩
      simpa using heq
    · obtain ⟨hk, hrow⟩ := ih h
      refine ⟨by simp only [List.length_append]; omega, ?_⟩
      simpa [List.getElem_append_left hk] using hrow

end Rows

/-! ## The calls of the drivers -/

section Calls

variable {c c' : HandlersCollection η} {source : BitVec 32}

theorem held_register :
    Held (events ++ [.register source f]) g i ↔ (g = f ∧ source.getLsbD i = true) ∨ Held events g i := by
  rw [held_concat]
  constructor
  · rintro (⟨source', heq, hbit⟩ | ⟨hheld, -⟩)
    · obtain ⟨rfl, rfl⟩ : source = source' ∧ f = g := by simpa using heq
      exact Or.inl ⟨rfl, hbit⟩
    · exact Or.inr hheld
  · rintro (⟨rfl, hbit⟩ | hheld)
    · exact Or.inl ⟨source, rfl, hbit⟩
    · exact Or.inr ⟨hheld, by simp⟩

theorem held_unregister :
    Held (events ++ [.unregister source f]) g i ↔
      Held events g i ∧ (g = f → source.getLsbD i = false) := by
  rw [held_concat]
  constructor
  · rintro (⟨source', heq, -⟩ | ⟨hheld, hkept⟩)
    · cases heq
    · refine ⟨hheld, ?_⟩
      rintro rfl
      exact hkept source rfl
  · rintro ⟨hheld, hkept⟩
    refine Or.inr ⟨hheld, fun dropped heq => ?_⟩
    obtain ⟨rfl, rfl⟩ : source = dropped ∧ f = g := by simpa using heq
    exact hkept rfl

theorem live_register (hsource : source ≠ 0) : Live (events ++ [.register source f]) f := by
  obtain ⟨i, hbit⟩ := exists_bit hsource
  exact ⟨i, held_register.mpr (Or.inl ⟨rfl, hbit⟩)⟩

variable [DecidableEq η]

/-- What a registration that returns has done. -/
theorem registerHandler_cases (h : registerHandler c source f = some c') :
    source ≠ 0 ∧ c'.handledMask = c.handledMask ||| source ∧
      ((∃ k, ∃ hk : k < c.handlers.length, c.handlers[k].handler = f ∧
          c'.handlers = c.handlers.modify k (addSource source)) ∨
        (f ∉ c.handlers.map (·.handler) ∧
          c'.handlers = c.handlers ++ [addSource source ⟨f, 0⟩])) := by
  unfold registerHandler at h
  split at h
  · cases h
  next hsource =>
  refine ⟨hsource, ?_⟩
  split at h
  · next k hfind =>
    obtain ⟨hk, hname, -⟩ := List.findIdx?_eq_some_iff_getElem.mp hfind
    obtain rfl := Option.some.inj h
    exact ⟨rfl, Or.inl ⟨k, hk, of_decide_eq_true hname, rfl⟩⟩
  · next hfind =>
    split at h
    · obtain rfl := Option.some.inj h
      refine ⟨rfl, Or.inr ⟨?_, rfl⟩⟩
      simpa [List.findIdx?_eq_none_iff] using hfind
    · cases h

/-- A registration is refused for an empty mask and for a new function in a full table. -/
theorem registerHandler_eq_none (h : registerHandler c source f = none) :
    source = 0 ∨ (f ∉ c.handlers.map (·.handler) ∧ maxHandlers ≤ c.handlers.length) := by
  unfold registerHandler at h
  split at h
  · next hsource => exact Or.inl hsource
  split at h
  · cases h
  · next hfind =>
    split at h
    · cases h
    · next hfull =>
      refine Or.inr ⟨?_, Nat.le_of_not_lt hfull⟩
      simpa [List.findIdx?_eq_none_iff] using hfind

theorem Table.register (h : Table events c) (hreg : registerHandler c source f = some c') :
    Table (events ++ [.register source f]) c' := by
  obtain ⟨hsource, hmask, hrows⟩ := registerHandler_cases hreg
  have hlive : Live (events ++ [.register source f]) f := live_register hsource
  have hrows' : Rows (events ++ [.register source f]) c'.handlers := by
    rcases hrows with ⟨k, hk, rfl, hrows⟩ | ⟨hnew, hrows⟩
    · rw [hrows]
      refine h.rows.modify hk (fun _ => rfl) rfl (fun i => ?_) hlive
      have hrow := h.rows.source _ (List.getElem_mem hk) i
      simp [addSource, held_register, hrow, or_comm]
    · rw [hrows]
      have hnot : ¬ Live events f := fun hf => hnew ((h.rows.live f).mpr hf)
      refine h.rows.concat rfl hnot (fun i => ?_) hlive
      have hheld : ¬ Held events f i := fun hf => hnot ⟨i, hf⟩
      simp [addSource, held_register, hheld]
  refine ⟨hrows', fun i => ?_⟩
  rw [hrows'.covered, hmask, BitVec.getLsbD_or, Bool.or_eq_true, h.mask i, h.rows.covered]
  simp [held_register, exists_or, or_comm]

theorem Table.unregister (h : Table events c) :
    Table (events ++ [.unregister source f]) (unregisterHandler c source f).1 := by
  unfold unregisterHandler
  split
  · next hfind =>
    have hnot : ¬ Live events f := fun hf => findDelete_none hfind ((h.rows.live f).mpr hf)
    refine ⟨h.rows.same fun g i => ?_, h.mask⟩
    rw [held_unregister]
    refine ⟨fun hheld => hheld.1, fun hheld => ⟨hheld, ?_⟩⟩
    rintro rfl
    exact absurd ⟨i, hheld⟩ hnot
  · next k hfind =>
    obtain ⟨hk, rfl, hempty⟩ := findDelete_some hfind
    refine ⟨h.rows.eraseIdx hk rfl ?_, fun i => getLsbD_orSources _⟩
    rintro ⟨i, hheld⟩
    obtain ⟨hbefore, hkept⟩ := held_unregister.mp hheld
    have hbit := (h.rows.source _ (List.getElem_mem hk) i).mpr hbefore
    have hzero : c.handlers[k].source &&& ~~~source = 0 := by simpa using hempty.symm
    have hclear := getLsbD_clear.mpr ⟨hbit, hkept rfl⟩
    rw [hzero] at hclear
    simp at hclear
  · next k hfind =>
    obtain ⟨hk, rfl, hsome⟩ := findDelete_some hfind
    have hbits : ∀ i, (dropSource source c.handlers[k]).source.getLsbD i = true ↔
        Held (events ++ [.unregister source c.handlers[k].handler]) c.handlers[k].handler i := by
      intro i
      have hrow := h.rows.source _ (List.getElem_mem hk) i
      show (c.handlers[k].source &&& ~~~source).getLsbD i = true ↔ _
      rw [getLsbD_clear, held_unregister, hrow]
      simp
    have hne : (dropSource source c.handlers[k]).source ≠ 0 := by simpa [dropSource] using hsome
    obtain ⟨i, hbit⟩ := exists_bit hne
    refine ⟨h.rows.modify hk (fun _ => rfl) rfl hbits ⟨i, (hbits i).mp hbit⟩, fun i => ?_⟩
    exact getLsbD_orSources _

end Calls

/-! ## Passes and runs -/

/-- The functions registered leave the table and the enable register alone. -/
def Surroundings.Quiet (m : Surroundings η σ) : Prop :=
  ∀ f s, (m.run f s).manager = s.manager ∧ (m.run f s).irqEnable = s.irqEnable

/-- What a pass with this status does to the enable register. -/
structure PassDone (events : List (Event η)) (status : BitVec 32) (s s' : Core η σ) : Prop where
  orphan : ∀ i, status.getLsbD i = true → (∀ f, ¬ Held events f i) → s'.irqEnable.getLsbD i = false
  covered : ∀ i, (∃ f, Held events f i) → s'.irqEnable.getLsbD i = s.irqEnable.getLsbD i
  silent : ∀ i, status.getLsbD i = false → s'.irqEnable.getLsbD i = s.irqEnable.getLsbD i

/-- The calls of the drivers that meet the assertion on their mask. -/
def Event.Call : Event η → Prop
  | .register source _ => source ≠ 0
  | .irq _ | .fiq _ => False
  | _ => True

section Passes

variable {m : Surroundings η σ} {s s' : Core η σ} {mask pending source : BitVec 32}

theorem processHandlers_frame (hquiet : m.Quiet) (h : m.processHandlers source s = some s') :
    s'.manager = s.manager ∧ s'.irqEnable = s.irqEnable := by
  simp only [Surroundings.processHandlers] at h
  split at h
  · obtain rfl := Option.some.inj h
    refine List.foldlRecOn (motive := fun t : Core η σ => t.manager = s.manager ∧ t.irqEnable = s.irqEnable)
      _ _ ⟨rfl, rfl⟩ fun t ht f _ => ?_
    exact ⟨(hquiet f t).1.trans ht.1, (hquiet f t).2.trans ht.2⟩
  · cases h

/-- A pass disables the pending sources outside the handled mask, and no others. -/
theorem servePass_spec (hquiet : m.Quiet) (h : m.servePass mask pending s = some s') :
    s'.manager = s.manager ∧
      s'.irqEnable = s.irqEnable &&& ~~~(pending &&& mask &&& ~~~s.manager.handledMask) := by
  simp only [Surroundings.servePass] at h
  split at h
  · next hzero =>
    obtain rfl := Option.some.inj h
    refine ⟨rfl, ?_⟩
    have hnone : pending &&& mask &&& ~~~s.manager.handledMask = 0 := by
      rw [hzero]
      exact BitVec.zero_and
    rw [hnone]
    exact (clear_zero _).symm
  · obtain ⟨t, ht, rfl⟩ := Option.map_eq_some_iff.mp h
    obtain ⟨hmanager, henable⟩ := processHandlers_frame hquiet ht
    split
    · exact ⟨hmanager, by rw [disableIrqSource, henable]⟩
    · next hnone =>
      refine ⟨hmanager, ?_⟩
      rw [henable, not_not.mp hnone]
      exact (clear_zero _).symm

theorem Table.servePass (h : Table events s.manager) (hquiet : m.Quiet)
    (hpass : m.servePass mask pending s = some s') : PassDone events (pending &&& mask) s s' := by
  obtain ⟨-, henable⟩ := servePass_spec hquiet hpass
  have hmask : ∀ i, s.manager.handledMask.getLsbD i = true ↔ ∃ f, Held events f i := fun i =>
    (h.mask i).trans h.rows.covered
  have hafter : ∀ i, s'.irqEnable.getLsbD i = true ↔ s.irqEnable.getLsbD i = true ∧
      ¬ ((pending &&& mask).getLsbD i = true ∧ s.manager.handledMask.getLsbD i = false) := by
    intro i
    have horphan := @getLsbD_clear i (pending &&& mask) s.manager.handledMask
    rw [henable, getLsbD_clear, ← horphan, Bool.not_eq_true]
  refine ⟨fun i hstatus hnone => ?_, fun i hheld => ?_, fun i hstatus => ?_⟩
  · have hclear : s.manager.handledMask.getLsbD i = false := by
      rw [← Bool.not_eq_true, hmask]
      simpa using hnone
    rw [← Bool.not_eq_true, hafter]
    simp [hstatus, hclear]
  · rw [Bool.eq_iff_iff, hafter, (hmask i).mpr hheld]
    simp
  · rw [Bool.eq_iff_iff, hafter, hstatus]
    simp

theorem Table.same (h : Table events s.manager) (hmanager : s'.manager = s.manager)
    (he : ∀ f, e.func? ≠ some f) : Table (events ++ [e]) s'.manager := by
  rw [hmanager]
  exact ⟨h.rows.same fun f i => held_concat_of_ne (he f), h.mask⟩

theorem table_nil : Table ([] : List (Event η)) { handledMask := 0, handlers := [] } := by
  have hnone : ∀ f : η, ¬ Live [] f := by
    rintro f ⟨i, hheld⟩
    exact not_held_nil hheld
  refine ⟨⟨by simp, fun f => ?_, by simp, by simp, by simp⟩, by simp⟩
  exact iff_of_false (by simp) (hnone f)

variable [DecidableEq η]

/-- The calls of the drivers keep the table right, whatever the functions do. -/
theorem Table.call (h : Table events s.manager) (hirq : ∀ pending, e ≠ .irq pending)
    (hfiq : ∀ pending, e ≠ .fiq pending) (hstep : m.step s e = some s') :
    Table (events ++ [e]) s'.manager := by
  cases e with
  | register source f =>
    obtain ⟨c, hreg, rfl⟩ := Option.map_eq_some_iff.mp hstep
    exact h.register hreg
  | unregister source f =>
    obtain rfl := Option.some.inj hstep
    exact h.unregister
  | enable source =>
    obtain rfl := Option.some.inj hstep
    exact h.same rfl nofun
  | disable source =>
    obtain rfl := Option.some.inj hstep
    exact h.same rfl nofun
  | irq pending => exact absurd rfl (hirq pending)
  | fiq pending => exact absurd rfl (hfiq pending)

theorem Table.step (h : Table events s.manager) (hquiet : m.Quiet) (hstep : m.step s e = some s') :
    Table (events ++ [e]) s'.manager := by
  cases e with
  | irq pending => exact h.same (servePass_spec hquiet hstep).1 nofun
  | fiq pending => exact h.same (servePass_spec hquiet hstep).1 nofun
  | _ => exact h.call nofun nofun hstep

theorem table_of_calls {irqEnable : BitVec 32} {rest : σ} (hcalls : ∀ e ∈ events, e.Call)
    (hrun : runSteps m.step (Core.start irqEnable rest) events = some s) :
    Table events s.manager := by
  refine invariant_of_history (fun events s => Table events s.manager) table_nil
    (fun pre e t t' hpre h hstep => ?_) hrun
  have hcall : e.Call := hcalls e (hpre.subset (List.mem_append_right _ List.mem_cons_self))
  refine h.call ?_ ?_ hstep
  · rintro pending rfl
    exact hcall
  · rintro pending rfl
    exact hcall

theorem table_of_run (hquiet : m.Quiet) {irqEnable : BitVec 32} {rest : σ}
    (hrun : runSteps m.step (Core.start irqEnable rest) events = some s) :
    Table events s.manager :=
  invariant_of_history (fun events s => Table events s.manager) table_nil
    (fun _ _ _ _ _ h hstep => h.step hquiet hstep) hrun

omit [DecidableEq η] in
theorem length_le_encard {live : Set η} {fs : List η} (hnodup : fs.Nodup)
    (hlive : ∀ f ∈ fs, f ∈ live) : (fs.length : ℕ∞) ≤ live.encard := by
  classical
  calc (fs.length : ℕ∞) = fs.toFinset.card := by rw [List.toFinset_card_of_nodup hnodup]
    _ = (fs.toFinset : Set η).encard := (Set.encard_coe_eq_coe_finsetCard _).symm
    _ ≤ live.encard := Set.encard_le_encard fun f hf => hlive f (by simpa using hf)

/-- A call returns while few functions are live, itself counted. -/
theorem Table.step_isSome (h : Table events s.manager)
    (hfew : {f | Live (events ++ [e]) f}.encard ≤ maxHandlers) (hcall : e.Call) :
    (m.step s e).isSome = true := by
  cases e with
  | register source f =>
    have hnonzero : source ≠ 0 := hcall
    by_contra hnone
    have hreg : registerHandler s.manager source f = none := by
      simpa [Surroundings.step] using hnone
    rcases registerHandler_eq_none hreg with hzero | ⟨hnew, hfull⟩
    · exact hnonzero hzero
    have hlive : ∀ g ∈ f :: s.manager.handlers.map (·.handler),
        Live (events ++ [.register source f]) g := by
      intro g hg
      rcases List.mem_cons.mp hg with rfl | hg
      · exact live_register hnonzero
      · obtain ⟨i, hheld⟩ := (h.rows.live g).mp hg
        exact ⟨i, held_register.mpr (Or.inr hheld)⟩
    have hcount := (length_le_encard (List.nodup_cons.mpr ⟨hnew, h.rows.once⟩) hlive).trans hfew
    have hle : s.manager.handlers.length + 1 ≤ maxHandlers := by
      simpa using (Nat.cast_le (α := ℕ∞)).mp hcount
    omega
  | irq pending => exact hcall.elim
  | fiq pending => exact hcall.elim
  | _ => rfl

end Passes

/-- Over every history the table is the registrations in force, the calls return while at most
`maxHandlers` functions are live, and a pass that returns disables just what nobody holds. -/
theorem interrupt_table [DecidableEq η] (m : Surroundings η σ) (hquiet : m.Quiet)
    (irqEnable : BitVec 32) (rest : σ) (events : List (Event η)) :
    (∀ s, runSteps m.step (Core.start irqEnable rest) events = some s →
      Table events s.manager ∧
      (∀ pending s', m.intcIrq pending s = some s' → PassDone events (pending &&& irqMask) s s') ∧
      (∀ pending s', m.intcFiq pending s = some s' → PassDone events (pending &&& fiqMask) s s')) ∧
    (FewLive events → ∀ front e s, front ++ [e] <+: events → e.Call →
      runSteps m.step (Core.start irqEnable rest) front = some s → (m.step s e).isSome = true) := by
  constructor
  · intro s hrun
    have htable := table_of_run hquiet hrun
    exact ⟨htable, fun pending s' h => htable.servePass hquiet h,
      fun pending s' h => htable.servePass hquiet h⟩
  · intro hfew front e s hfront hcall hrun
    exact (table_of_run hquiet hrun).step_isSome (hfew _ hfront) hcall

/-- Two functions, one of which gives a source back; the pass finds that source orphaned. -/
theorem interrupt_table_two :
    Table [.register 5 0, .register 2 1, .unregister 1 (0 : Fin 2)]
      { handledMask := 6, handlers := [⟨0, 4⟩, ⟨1, 2⟩] } ∧
    PassDone [.register 5 0, .register 2 1, .unregister 1 (0 : Fin 2)] 3
      { manager := { handledMask := 6, handlers := [⟨0, 4⟩, ⟨1, 2⟩] }, irqEnable := 7, rest := () }
      { manager := { handledMask := 6, handlers := [⟨0, 4⟩, ⟨1, 2⟩] }, irqEnable := 6, rest := () } ∧
    ((⟨fun _ s => s, fun _ r => r⟩ : Surroundings (Fin 2) Unit).step
      { manager := { handledMask := 6, handlers := [⟨0, 4⟩, ⟨1, 2⟩] }, irqEnable := 7, rest := () }
      (.register 8 1)).isSome = true := by
  have hfew : FewLive [.register 5 0, .register 2 1, .unregister 1 (0 : Fin 2), .register 8 1] := by
    intro front _
    calc {f | Live front f}.encard ≤ ENat.card (Fin 2) := Set.encard_le_card
      _ = (2 : ℕ) := by simp
      _ ≤ (maxHandlers : ℕ) := Nat.cast_le.mpr (by decide)
  have hquiet : (⟨fun _ s => s, fun _ r => r⟩ : Surroundings (Fin 2) Unit).Quiet :=
    fun _ _ => ⟨rfl, rfl⟩
  have hrun := interrupt_table _ hquiet 7 () [.register 5 0, .register 2 1, .unregister 1 0]
  have hcall := (interrupt_table _ hquiet 7 ()
    [.register 5 0, .register 2 1, .unregister 1 0, .register 8 1]).2 hfew
    [.register 5 0, .register 2 1, .unregister 1 0] (.register 8 1) _ List.prefix_rfl
    (by simp [Event.Call]) rfl
  have hreached := hrun.1 _ rfl
  exact ⟨hreached.1, hreached.2.1 3 _ rfl, hcall⟩

end BekenCam.Intc
