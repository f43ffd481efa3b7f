import BekenCam.RwMsgModel

/-!
# Each request gets its own confirmation

The messages with one confirmation id form a line through the queue, the LMAC and the list of
received messages. As long as messages are queued in the order in which their nodes were parked,
that line is the list of the parked nodes with this id whose message is queued, so the first node
with the id of a received message is the one whose request it answers.
-/
namespace BekenCam.RwMsg

variable {ι : Type}

/-! ## The invariant -/

/-- The message whose node is still looked for. -/
def Search.msg : Search → List KeMsg
  | picking msg | comparing msg _ | extracting msg _ | advancing msg _ => [msg]
  | _ => []

/-- Everything that is to be matched, the oldest first. -/
def State.line (s : State ι) : List Request :=
  (s.kmsg.msg ++ s.rxHead).map KeMsg.request ++ s.lmac ++ s.queue

def Request.has (x : UInt16) (req : Request) : Bool := req.cfmId == x

/-- A parked node with this id whose message is queued. -/
def Node.has (sent : ℕ → Bool) (x : UInt16) (t : Node) : Bool := t.reqid == x && sent t.num

/-- The nodes before the one that the search stands on do not have the id of the message. -/
def Passed (tx : List Node) (msg : KeMsg) (node : Node) : Prop :=
  ∃ ahead rest, tx = ahead ++ node :: rest ∧ ∀ t ∈ ahead, t.reqid ≠ msg.id

def Search.Stands (tx : List Node) : Search → Prop
  | comparing msg node => Passed tx msg node
  | extracting msg node => Passed tx msg node ∧ node.reqid = msg.id
  | advancing msg node => Passed tx msg node ∧ node.reqid ≠ msg.id
  | _ => True

/-- The node that was found and taken out. -/
def Search.held : Search → Option Node
  | copying _ node | signalling node => some node
  | _ => none

def Pc.node : Pc → Option Node
  | idle => none
  | parking node | sending node | unparking node | waiting node => some node

/-- What a task can rely on. -/
def Pc.Owns (s : State ι) : Pc → Prop
  | idle => True
  | parking node => node.reqid ∈ awaited ∧ node.num < s.next ∧ s.sent node.num = false ∧
      node.num ∉ s.txHead.map Node.num
  | sending node | unparking node => node ∈ s.txHead ∧ s.sent node.num = false
  | waiting node => s.sent node.num = true

/-- The buffer of the call holds what the LMAC answered to it. -/
def Got (s : State ι) (n : ℕ) : Prop :=
  ∃ param, (n, param) ∈ s.answers ∧ s.cfm n = copyCfm (s.given n) param

/-- The nodes, and the tasks they belong to. -/
structure Parked (s : State ι) : Prop where
  ids : ∀ t ∈ s.txHead, t.reqid ∈ awaited
  nodup : (s.txHead.map Node.num).Nodup
  fresh : ∀ t ∈ s.txHead, t.num < s.next
  sent_lt : ∀ n, s.sent n = true → n < s.next
  order : s.txHead.Pairwise fun t u => t.reqid = u.reqid → s.sent u.num = true → s.sent t.num = true
  tasks : ∀ i, (s.pc i).Owns s
  distinct : ∀ i j t u, (s.pc i).node = some t → (s.pc j).node = some u → t.num = u.num → i = j

/-- The line of each id, and the search. -/
structure Lined (s : State ι) : Prop where
  line : ∀ x ∈ awaited, (s.line.filter (Request.has x)).map Request.num =
    (s.txHead.filter (Node.has s.sent x)).map fun t => some t.num
  search : s.kmsg.Stands s.txHead
  replies : ∀ msg ∈ s.kmsg.msg ++ s.rxHead, ∀ n, msg.answers = some n → (n, msg.param) ∈ s.answers

/-- What was found, and what the callers have got. -/
structure Found (s : State ι) : Prop where
  held : ∀ t, s.kmsg.held = some t → s.sent t.num = true ∧ t.num ∉ s.txHead.map Node.num ∧
    s.signalled t.num = false
  copying : ∀ msg t, s.kmsg = .copying msg t → (t.num, msg.param) ∈ s.answers
  signalling : ∀ t, s.kmsg = .signalling t → Got s t.num
  signalled : ∀ n, s.signalled n = true → s.sent n = true ∧ n ∉ s.txHead.map Node.num ∧ Got s n
  untouched : ∀ n, s.signalled n = false → (∀ t, s.kmsg = .signalling t → t.num ≠ n) →
    s.cfm n = s.given n
  returned : ∀ r ∈ s.returned, ∃ param, (r.num, param) ∈ s.answers ∧ r.cfm = copyCfm r.given param

structure Inv (s : State ι) : Prop where
  parked : Parked s
  lined : Lined s
  found : Found s

theorem inv_init : Inv (init ι) where
  parked := ⟨nofun, List.nodup_nil, nofun, nofun, List.Pairwise.nil, fun _ => trivial, nofun⟩
  lined := ⟨fun _ _ => rfl, trivial, nofun⟩
  found := ⟨nofun, nofun, nofun, nofun, fun _ _ _ => rfl, nofun⟩

/-! ## The tasks -/

section Tasks

variable [DecidableEq ι] {s s' : State ι} {i : ι} {pc : Pc}

theorem pc_set (s : State ι) (i j : ι) (pc : Pc) :
    (s.set i pc).pc j = if j = i then pc else s.pc j :=
  Function.update_apply s.pc i pc j

omit [DecidableEq ι] in
/-- A node in use has a number that was given out. -/
theorem Parked.node_lt (h : Parked s) {j : ι} {t : Node} (hj : (s.pc j).node = some t) :
    t.num < s.next := by
  have howns := h.tasks j
  cases hpc : s.pc j with
  | idle => simp [hpc, Pc.node] at hj
  | parking u =>
    rw [hpc] at hj howns
    obtain rfl : u = t := Option.some.inj hj
    exact howns.2.1
  | sending u | unparking u =>
    rw [hpc] at hj howns
    obtain rfl : u = t := Option.some.inj hj
    exact h.fresh u howns.1
  | waiting u =>
    rw [hpc] at hj howns
    obtain rfl : u = t := Option.some.inj hj
    exact h.sent_lt u.num howns

theorem tasks_set (hpc : s'.pc = s.pc) (hothers : ∀ j ≠ i, (s.pc j).Owns s') (hi : pc.Owns s')
    (j : ι) : ((s'.set i pc).pc j).Owns (s'.set i pc) := by
  have howns : ((s'.set i pc).pc j).Owns s' := by
    rw [pc_set]
    split_ifs with hj
    · exact hi
    · rw [hpc]
      exact hothers j hj
  exact howns

theorem distinct_set (h : Parked s) (hpc : s'.pc = s.pc)
    (hi : ∀ t, pc.node = some t → ∀ j ≠ i, ∀ u, (s.pc j).node = some u → t.num ≠ u.num) (j k : ι)
    (t u : Node) (hj : ((s'.set i pc).pc j).node = some t) (hk : ((s'.set i pc).pc k).node = some u)
    (heq : t.num = u.num) : j = k := by
  rw [pc_set, hpc] at hj hk
  split_ifs at hj hk with hji hki hki
  · rw [hji, hki]
  · exact absurd heq (hi t hj k hki u hk)
  · exact absurd heq.symm (hi u hk j hji t hj)
  · exact h.distinct j k t u hj hk heq

omit [DecidableEq ι] in
/-- A task's own node is nobody else's. -/
theorem Parked.own (h : Parked s) {t : Node} (hi : (s.pc i).node = some t) (j : ι) (hj : j ≠ i)
    (u : Node) (hu : (s.pc j).node = some u) : t.num ≠ u.num :=
  fun heq => hj (h.distinct i j t u hi hu heq).symm

theorem Inv.call (h : Inv s) {cfmId : UInt16} {cfm : Option (List UInt8)} (hid : cfmId ∈ awaited) :
    Inv ({ s with
      next := s.next + 1
      given := Function.update s.given s.next cfm
      cfm := Function.update s.cfm s.next cfm }.set i (.parking ⟨s.next, cfmId⟩)) := by
  have hp := h.parked
  have hgot : ∀ n, s.sent n = true → Got s n → Got ({ s with
      next := s.next + 1
      given := Function.update s.given s.next cfm
      cfm := Function.update s.cfm s.next cfm }.set i (.parking ⟨s.next, cfmId⟩)) n := by
    rintro n hsent ⟨param, hmem, hcfm⟩
    have hne : n ≠ s.next := Nat.ne_of_lt (hp.sent_lt n hsent)
    refine ⟨param, hmem, ?_⟩
    simp only [State.set, Function.update_of_ne hne]
    exact hcfm
  refine ⟨⟨hp.ids, hp.nodup, ?_, ?_, hp.order, ?_, ?_⟩, ⟨h.lined.line, h.lined.search,
    h.lined.replies⟩, ⟨h.found.held, h.found.copying, ?_, ?_, ?_, h.found.returned⟩⟩
  · exact fun t ht => Nat.lt_succ_of_lt (hp.fresh t ht)
  · exact fun n hn => Nat.lt_succ_of_lt (hp.sent_lt n hn)
  · refine tasks_set rfl (fun j _ => ?_) ⟨hid, Nat.lt_succ_self _, ?_, ?_⟩
    · have howns := hp.tasks j
      cases hj : s.pc j with
      | idle => trivial
      | parking t =>
        rw [hj] at howns
        exact ⟨howns.1, Nat.lt_succ_of_lt howns.2.1, howns.2.2⟩
      | sending t | unparking t | waiting t =>
        rw [hj] at howns
        exact howns
    · exact Bool.eq_false_iff.mpr fun hsent => Nat.lt_irrefl _ (hp.sent_lt _ hsent)
    · intro hmem
      obtain ⟨t, ht, heq⟩ := List.mem_map.mp hmem
      exact Nat.lt_irrefl _ (heq ▸ hp.fresh t ht)
  · refine distinct_set hp rfl ?_
    rintro t ⟨⟩ j - u hu
    exact Nat.ne_of_gt (hp.node_lt hu)
  · exact fun t ht => hgot t.num (h.found.held t (by rw [show s.kmsg = _ from ht]; rfl)).1
      (h.found.signalling t ht)
  · intro n hn
    obtain ⟨hsent, hgone, hn'⟩ := h.found.signalled n hn
    exact ⟨hsent, hgone, hgot n hsent hn'⟩
  · intro n hn hsig
    by_cases hne : n = s.next
    · simp only [State.set, hne, Function.update_self]
    · simp only [State.set, Function.update_of_ne hne]
      exact h.found.untouched n hn hsig

omit [DecidableEq ι] in
theorem Inv.post (h : Inv s) {cfmId : UInt16} (hid : cfmId ∉ awaited) :
    Inv { s with queue := s.queue ++ [⟨cfmId, none⟩] } := by
  refine ⟨{ h.parked with }, ⟨?_, h.lined.search, h.lined.replies⟩, { h.found with }⟩
  intro x hx
  have hne : (cfmId == x) = false := by
    rw [beq_eq_false_iff_ne]
    rintro rfl
    exact hid hx
  rw [← h.lined.line x hx]
  simp [State.line, Request.has, hne]

theorem Passed.append {tx : List Node} {msg : KeMsg} {node : Node} (h : Passed tx msg node)
    (t : Node) : Passed (tx ++ [t]) msg node := by
  obtain ⟨ahead, rest, rfl, hahead⟩ := h
  exact ⟨ahead, rest ++ [t], by simp, hahead⟩

theorem Search.Stands.append {k : Search} {tx : List Node} (h : k.Stands tx) (t : Node) :
    k.Stands (tx ++ [t]) := by
  cases k with
  | comparing msg node => exact Passed.append h t
  | extracting msg node => exact ⟨h.1.append t, h.2⟩
  | advancing msg node => exact ⟨h.1.append t, h.2⟩
  | idle | picking | copying | signalling => trivial

theorem Inv.park (h : Inv s) {t : Node} (hi : s.pc i = .parking t) :
    Inv ({ s with txHead := s.txHead ++ [t] }.set i (.sending t)) := by
  have hp := h.parked
  have hnode : (s.pc i).node = some t := by rw [hi]; rfl
  obtain ⟨hid, hlt, hsent, hnew⟩ : t.reqid ∈ awaited ∧ t.num < s.next ∧ s.sent t.num = false ∧
      t.num ∉ s.txHead.map Node.num := by
    have howns := hp.tasks i
    rwa [hi] at howns
  have hmap : ∀ n, s.sent n = true → n ∉ s.txHead.map Node.num →
      n ∉ (s.txHead ++ [t]).map Node.num := by
    intro n hn hgone
    have hne : n ≠ t.num := by
      rintro rfl
      simp [hsent] at hn
    simpa [hne] using hgone
  refine ⟨⟨?_, ?_, ?_, hp.sent_lt, ?_, ?_, ?_⟩, ⟨?_, h.lined.search.append t, h.lined.replies⟩,
    ⟨?_, h.found.copying, h.found.signalling, ?_, h.found.untouched, h.found.returned⟩⟩
  · intro u hu
    rcases List.mem_append.mp hu with hu | hu
    · exact hp.ids u hu
    · rw [List.mem_singleton.mp hu]
      exact hid
  · change ((s.txHead ++ [t]).map Node.num).Nodup
    rw [List.map_append, List.map_singleton]
    exact List.Nodup.append hp.nodup (List.nodup_singleton _) (by simpa using hnew)
  · intro u hu
    rcases List.mem_append.mp hu with hu | hu
    · exact hp.fresh u hu
    · rw [List.mem_singleton.mp hu]
      exact hlt
  · refine List.pairwise_append.mpr ⟨hp.order, List.pairwise_singleton _ _, ?_⟩
    intro u _ v hv _ hsv
    rw [List.mem_singleton.mp hv] at hsv
    exact absurd (hsent.symm.trans hsv) (by decide)
  · refine tasks_set rfl (fun j hj => ?_) ⟨by simp, hsent⟩
    have howns := hp.tasks j
    cases hjpc : s.pc j with
    | idle => trivial
    | parking u =>
      rw [hjpc] at howns
      refine ⟨howns.1, howns.2.1, howns.2.2.1, ?_⟩
      have hne := hp.own hnode j hj u (by rw [hjpc]; rfl)
      simpa [Ne.symm hne] using howns.2.2.2
    | sending u | unparking u =>
      rw [hjpc] at howns
      exact ⟨List.mem_append_left _ howns.1, howns.2⟩
    | waiting u =>
      rw [hjpc] at howns
      exact howns
  · refine distinct_set hp rfl ?_
    rintro u ⟨⟩
    exact hp.own hnode
  · intro x hx
    have hline := h.lined.line x hx
    have hnot : Node.has s.sent x t = false := by simp [Node.has, hsent]
    have hfilter : (s.txHead ++ [t]).filter (Node.has s.sent x) =
        s.txHead.filter (Node.has s.sent x) := by
      simp [List.filter_append, hnot]
    change _ = ((s.txHead ++ [t]).filter (Node.has s.sent x)).map fun u => some u.num
    rw [hfilter]
    exact hline
  · intro u hu
    obtain ⟨hsu, hgone, hsig⟩ := h.found.held u hu
    exact ⟨hsu, hmap _ hsu hgone, hsig⟩
  · intro n hn
    obtain ⟨hsn, hgone, hgot⟩ := h.found.signalled n hn
    exact ⟨hsn, hmap _ hsn hgone, hgot⟩

/-- A node and those before it. -/
theorem pairwise_of_split {α : Type} {R : α → α → Prop} {l : List α}
    (h : ∀ ahead t rest, l = ahead ++ t :: rest → ∀ u ∈ ahead, R u t) : l.Pairwise R := by
  induction l with
  | nil => exact List.Pairwise.nil
  | cons a l ih =>
    refine List.pairwise_cons.mpr ⟨fun b hb => ?_, ih fun ahead t rest hl u hu => ?_⟩
    · obtain ⟨ahead, rest, rfl⟩ := List.append_of_mem hb
      exact h (a :: ahead) b rest rfl a (by simp)
    · exact h (a :: ahead) t rest (by rw [hl]; rfl) u (by simp [hu])

theorem not_mem_ahead {ahead rest : List Node} {node : Node}
    (h : ((ahead ++ node :: rest).map Node.num).Nodup) :
    node.num ∉ (ahead ++ rest).map Node.num := by
  rw [List.map_append, List.map_cons, List.nodup_middle, List.nodup_cons] at h
  simpa using h.1

/-- The nodes before one. -/
theorem takeWhile_split {tx ahead rest : List Node} {t : Node} (hnodup : (tx.map Node.num).Nodup)
    (hsplit : tx = ahead ++ t :: rest) : tx.takeWhile (· ≠ t) = ahead := by
  rw [hsplit] at hnodup ⊢
  have hne : ∀ u ∈ ahead, decide (u ≠ t) = true := by
    intro u hu
    refine decide_eq_true ?_
    rintro rfl
    exact not_mem_ahead hnodup (List.mem_map_of_mem (List.mem_append_left _ hu))
  rw [List.takeWhile_append_of_pos hne, List.takeWhile_cons_of_neg (by simp), List.append_nil]

/-- The message of the first node that has not sent one goes to the end of the line. -/
theorem filter_update_sent {ahead rest : List Node} {t : Node} {sent : ℕ → Bool} (x : UInt16)
    (hnodup : ((ahead ++ t :: rest).map Node.num).Nodup) (hsent : sent t.num = false)
    (hlater : ∀ u ∈ rest, u.reqid = t.reqid → sent u.num = false) :
    (ahead ++ t :: rest).filter (Node.has (Function.update sent t.num true) x) =
      (ahead ++ t :: rest).filter (Node.has sent x) ++ [t].filter fun u => u.reqid == x := by
  have hother : ∀ u ∈ ahead ++ rest, Node.has (Function.update sent t.num true) x u =
      Node.has sent x u := by
    intro u hu
    have hne : u.num ≠ t.num := fun heq =>
      not_mem_ahead hnodup (heq ▸ List.mem_map_of_mem hu)
    simp [Node.has, Function.update_of_ne hne]
  have hahead : ahead.filter (Node.has (Function.update sent t.num true) x) =
      ahead.filter (Node.has sent x) :=
    List.filter_congr fun u hu => hother u (by simp [hu])
  have hrest : rest.filter (Node.has (Function.update sent t.num true) x) =
      rest.filter (Node.has sent x) :=
    List.filter_congr fun u hu => hother u (by simp [hu])
  have hself : Node.has (Function.update sent t.num true) x t = (t.reqid == x) := by
    simp [Node.has]
  have hbefore : Node.has sent x t = false := by simp [Node.has, hsent]
  rw [List.filter_append, List.filter_append, List.filter_cons, List.filter_cons, hself, hbefore,
    hahead, hrest]
  by_cases hx : t.reqid = x
  · have hnone : rest.filter (Node.has sent x) = [] := by
      refine List.filter_eq_nil_iff.mpr fun u hu => ?_
      by_cases hux : u.reqid = x
      · simp [Node.has, hlater u hu (hux.trans hx.symm)]
      · simp [Node.has, hux]
    simp [hx, hnone]
  · simp [hx]

theorem Inv.queue (h : Inv s) {t : Node} (hi : s.pc i = .sending t) (hok : inOrder s (.queue i) = true) :
    Inv ({ s with
      queue := s.queue ++ [(⟨t.reqid, some t.num⟩ : Request)]
      sent := Function.update s.sent t.num true }.set i (.waiting t)) := by
  have hp := h.parked
  have hnode : (s.pc i).node = some t := by rw [hi]; rfl
  obtain ⟨hmem, hsent⟩ : t ∈ s.txHead ∧ s.sent t.num = false := by
    have howns := hp.tasks i
    rwa [hi] at howns
  have hmono : ∀ n, s.sent n = true → Function.update s.sent t.num true n = true := by
    intro n hn
    rw [Function.update_apply]
    split_ifs
    · rfl
    · exact hn
  replace hok : ∀ u ∈ s.txHead.takeWhile (· ≠ t), u.reqid = t.reqid → s.sent u.num = true := by
    intro u hu hid
    rw [inOrder, hi] at hok
    simpa [hid] using List.all_eq_true.mp hok u hu
  refine ⟨⟨hp.ids, hp.nodup, hp.fresh, ?_, ?_, ?_, ?_⟩, ⟨?_, h.lined.search, h.lined.replies⟩,
    ⟨?_, h.found.copying, h.found.signalling, ?_, h.found.untouched, h.found.returned⟩⟩
  · intro n hn
    by_cases hne : n = t.num
    · rw [hne]
      exact hp.fresh t hmem
    · exact hp.sent_lt n (by simpa [State.set, Function.update_of_ne hne] using hn)
  · refine pairwise_of_split fun ahead u rest hsplit v hv hid hu => hmono _ ?_
    by_cases hne : u.num = t.num
    · obtain rfl : u = t := List.inj_on_of_nodup_map hp.nodup
        (show u ∈ s.txHead by rw [show s.txHead = _ from hsplit]; simp) hmem hne
      exact hok v (takeWhile_split hp.nodup hsplit ▸ hv) hid
    · have horder := hp.order
      rw [show s.txHead = _ from hsplit] at horder
      refine (List.pairwise_append.mp horder).2.2 v hv u (by simp) hid ?_
      simpa [State.set, Function.update_of_ne hne] using hu
  · refine tasks_set rfl (fun j hj => ?_)
      (show Function.update s.sent t.num true t.num = true from Function.update_self _ _ _)
    have howns := hp.tasks j
    cases hjpc : s.pc j with
    | idle => trivial
    | parking u =>
      have hne := Ne.symm (hp.own hnode j hj u (by rw [hjpc]; rfl))
      rw [hjpc] at howns
      exact ⟨howns.1, howns.2.1, (Function.update_of_ne hne _ _).trans howns.2.2.1, howns.2.2.2⟩
    | sending u | unparking u =>
      have hne := Ne.symm (hp.own hnode j hj u (by rw [hjpc]; rfl))
      rw [hjpc] at howns
      exact ⟨howns.1, (Function.update_of_ne hne _ _).trans howns.2⟩
    | waiting u =>
      rw [hjpc] at howns
      exact hmono _ howns
  · refine distinct_set hp rfl ?_
    rintro u ⟨⟩
    exact hp.own hnode
  · intro x hx
    obtain ⟨ahead, rest, hsplit⟩ := List.append_of_mem hmem
    have hlater : ∀ u ∈ rest, u.reqid = t.reqid → s.sent u.num = false := by
      intro u hu hid
      have horder := hp.order
      rw [hsplit] at horder
      have hcons := (List.pairwise_append.mp horder).2.1
      refine Bool.eq_false_iff.mpr fun hsu => ?_
      have hst := (List.pairwise_cons.mp hcons).1 u hu hid.symm hsu
      simp [hsent] at hst
    have hfilter := filter_update_sent x (hsplit ▸ hp.nodup) hsent hlater
    rw [← hsplit] at hfilter
    have hline : ({ s with
        queue := s.queue ++ [(⟨t.reqid, some t.num⟩ : Request)]
        sent := Function.update s.sent t.num true }.set i (.waiting t)).line =
        s.line ++ [⟨t.reqid, some t.num⟩] := by
      simp [State.line, State.set]
    rw [hline, List.filter_append, List.map_append, h.lined.line x hx]
    change _ = (s.txHead.filter (Node.has (Function.update s.sent t.num true) x)).map _
    rw [hfilter, List.map_append]
    by_cases hid : t.reqid = x <;> simp [Request.has, hid]
  · intro u hu
    obtain ⟨hsu, hgone, hsig⟩ := h.found.held u hu
    exact ⟨hmono _ hsu, hgone, hsig⟩
  · intro n hn
    obtain ⟨hsn, hgone, hgot⟩ := h.found.signalled n hn
    exact ⟨hmono _ hsn, hgone, hgot⟩

theorem Inv.queueFails (h : Inv s) {t : Node} (hi : s.pc i = .sending t) :
    Inv (s.set i (.unparking t)) := by
  have hp := h.parked
  have hnode : (s.pc i).node = some t := by rw [hi]; rfl
  have howns : t ∈ s.txHead ∧ s.sent t.num = false := by
    have howns := hp.tasks i
    rwa [hi] at howns
  refine ⟨⟨hp.ids, hp.nodup, hp.fresh, hp.sent_lt, hp.order, ?_, ?_⟩, { h.lined with },
    { h.found with }⟩
  · exact tasks_set rfl (fun j _ => hp.tasks j) howns
  · refine distinct_set hp rfl ?_
    rintro u ⟨⟩
    exact hp.own hnode

theorem Passed.erase {tx : List Node} {msg : KeMsg} {node t : Node} (h : Passed tx msg node)
    (hne : node ≠ t) : Passed (tx.erase t) msg node := by
  obtain ⟨ahead, rest, rfl, hahead⟩ := h
  rw [List.erase_append]
  split_ifs
  · exact ⟨ahead.erase t, rest, rfl, fun u hu => hahead u (List.mem_of_mem_erase hu)⟩
  · refine ⟨ahead, rest.erase t, ?_, hahead⟩
    rw [List.erase_cons_tail (by simpa using hne)]

theorem Search.Stands.erase {k : Search} {tx : List Node} {t : Node} (h : k.Stands tx)
    (hne : k.node ≠ some t) : k.Stands (tx.erase t) := by
  have hnode : ∀ node, k.node = some node → node ≠ t := by
    rintro node hk rfl
    exact hne hk
  cases k with
  | comparing msg node => exact Passed.erase h (hnode node rfl)
  | extracting msg node => exact ⟨h.1.erase (hnode node rfl), h.2⟩
  | advancing msg node => exact ⟨h.1.erase (hnode node rfl), h.2⟩
  | idle | picking | copying | signalling => trivial

theorem filter_erase_of_not {p : Node → Bool} {t : Node} (hp : p t = false) (tx : List Node) :
    (tx.erase t).filter p = tx.filter p := by
  by_cases hmem : t ∈ tx
  · obtain ⟨ahead, rest, -, rfl, herase⟩ := List.exists_erase_eq hmem
    simp [herase, hp]
  · rw [List.erase_of_not_mem hmem]

omit [DecidableEq ι] in
/-- What stays true of the nodes when one is taken out. -/
theorem Parked.erase (h : Parked s) (t : Node) :
    (∀ u ∈ s.txHead.erase t, u.reqid ∈ awaited) ∧ ((s.txHead.erase t).map Node.num).Nodup ∧
      (∀ u ∈ s.txHead.erase t, u.num < s.next) ∧ (s.txHead.erase t).Pairwise fun u v =>
        u.reqid = v.reqid → s.sent v.num = true → s.sent u.num = true := by
  have hsub : (s.txHead.erase t).Sublist s.txHead := List.erase_sublist
  exact ⟨fun u hu => h.ids u (hsub.subset hu), h.nodup.sublist (hsub.map _),
    fun u hu => h.fresh u (hsub.subset hu), h.order.sublist hsub⟩

theorem not_mem_erase {n : ℕ} {tx : List Node} (h : n ∉ tx.map Node.num) (t : Node) :
    n ∉ (tx.erase t).map Node.num :=
  fun hmem => h ((List.erase_sublist.map _).subset hmem)

omit [DecidableEq ι] in
/-- The tasks that do not own the node that is taken out. -/
theorem Pc.Owns.erase {pc : Pc} (h : pc.Owns s) {t : Node} {s' : State ι}
    (hnext : s'.next = s.next) (hsent : s'.sent = s.sent) (htx : s'.txHead = s.txHead.erase t)
    (hne : pc.node ≠ some t) : pc.Owns s' := by
  cases pc with
  | idle => trivial
  | parking u =>
    unfold Pc.Owns
    rw [hnext, hsent, htx]
    exact ⟨h.1, h.2.1, h.2.2.1, not_mem_erase h.2.2.2 t⟩
  | sending u | unparking u =>
    unfold Pc.Owns
    rw [hsent, htx]
    have hut : u ≠ t := by
      rintro rfl
      exact hne rfl
    exact ⟨(List.mem_erase_of_ne hut).mpr h.1, h.2⟩
  | waiting u =>
    unfold Pc.Owns
    rw [hsent]
    exact h

theorem Inv.unpark (h : Inv s) {t : Node} (hi : s.pc i = .unparking t)
    (hok : inOrder s (.unpark i) = true) : Inv ({ s with txHead := s.txHead.erase t }.set i .idle) := by
  have hp := h.parked
  have hnode : (s.pc i).node = some t := by rw [hi]; rfl
  obtain ⟨-, hsent⟩ : t ∈ s.txHead ∧ s.sent t.num = false := by
    have howns := hp.tasks i
    rwa [hi] at howns
  replace hok : s.kmsg.node ≠ some t := by
    rw [inOrder, hi] at hok
    simpa using hok
  obtain ⟨hids, hnodup, hfresh, horder⟩ := hp.erase t
  refine ⟨⟨hids, hnodup, hfresh, hp.sent_lt, horder, ?_, ?_⟩,
    ⟨?_, h.lined.search.erase hok, h.lined.replies⟩,
    ⟨?_, h.found.copying, h.found.signalling, ?_, h.found.untouched, h.found.returned⟩⟩
  · refine tasks_set rfl (fun j hj => ?_) trivial
    refine (hp.tasks j).erase rfl rfl rfl fun hjt => ?_
    exact hp.own hnode j hj t hjt rfl
  · exact distinct_set hp rfl nofun
  · intro x hx
    have hnot : Node.has s.sent x t = false := by simp [Node.has, hsent]
    change _ = ((s.txHead.erase t).filter (Node.has s.sent x)).map _
    rw [filter_erase_of_not hnot]
    exact h.lined.line x hx
  · intro u hu
    obtain ⟨hsu, hgone, hsig⟩ := h.found.held u hu
    exact ⟨hsu, not_mem_erase hgone t, hsig⟩
  · intro n hn
    obtain ⟨hsn, hgone, hgot⟩ := h.found.signalled n hn
    exact ⟨hsn, not_mem_erase hgone t, hgot⟩

theorem Inv.wake (h : Inv s) {t : Node} (hsig : s.signalled t.num = true) :
    Inv ({ s with
      returned := ⟨t.num, s.given t.num, s.cfm t.num⟩ :: s.returned }.set i .idle) := by
  have hp := h.parked
  refine ⟨⟨hp.ids, hp.nodup, hp.fresh, hp.sent_lt, hp.order, ?_, ?_⟩, { h.lined with },
    { h.found with returned := ?_ }⟩
  · exact tasks_set rfl (fun j _ => hp.tasks j) trivial
  · exact distinct_set hp rfl nofun
  · intro r hr
    rcases List.mem_cons.mp hr with rfl | hr
    · exact (h.found.signalled t.num hsig).2.2
    · exact h.found.returned r hr

end Tasks

/-! ## The LMAC -/

section Lmac

variable {s : State ι}

theorem Inv.take (h : Inv s) {req : Request} {rest : List Request} (hq : s.queue = req :: rest) :
    Inv { s with queue := rest, lmac := s.lmac ++ [req] } := by
  have hline : ({ s with queue := rest, lmac := s.lmac ++ [req] } : State ι).line = s.line := by
    simp [State.line, hq]
  refine ⟨{ h.parked with }, ⟨?_, h.lined.search, h.lined.replies⟩, { h.found with }⟩
  rw [hline]
  exact h.lined.line

/-- The first request with an id leaves the LMAC. -/
theorem filter_eraseP {l : List Request} {cfmId : UInt16} {req : Request}
    (hfind : l.find? (·.cfmId == cfmId) = some req) (x : UInt16) :
    l.filter (Request.has x) =
      [req].filter (Request.has x) ++ (l.eraseP (·.cfmId == cfmId)).filter (Request.has x) := by
  obtain ⟨hid, ahead, rest, rfl, hahead⟩ := List.find?_eq_some_iff_append.mp hfind
  have herase : (ahead ++ req :: rest).eraseP (·.cfmId == cfmId) = ahead ++ rest := by
    rw [List.eraseP_append_right _ fun b hb => by simpa using hahead b hb, List.eraseP_cons, hid]
    rfl
  rw [herase, List.filter_append, List.filter_append, List.filter_cons]
  have hcfm : req.cfmId = cfmId := by simpa using hid
  by_cases hx : req.cfmId = x
  · have hnone : ahead.filter (Request.has x) = [] := by
      refine List.filter_eq_nil_iff.mpr fun u hu => ?_
      have hne : u.cfmId ≠ cfmId := by simpa using hahead u hu
      simpa [Request.has, ← hx, hcfm] using hne
    simp [Request.has, hx, hnone]
  · simp [Request.has, hx]

theorem Got.mono {s' : State ι} {n : ℕ} (h : Got s n) (hanswers : ∀ a ∈ s.answers, a ∈ s'.answers)
    (hcfm : s'.cfm = s.cfm) (hgiven : s'.given = s.given) : Got s' n := by
  obtain ⟨param, hmem, heq⟩ := h
  exact ⟨param, hanswers _ hmem, by rw [hcfm, hgiven, heq]⟩

theorem Inv.answer (h : Inv s) {cfmId : UInt16} {param : List UInt8} {req : Request}
    (hfind : s.lmac.find? (·.cfmId == cfmId) = some req) :
    Inv { s with
      lmac := s.lmac.eraseP (·.cfmId == cfmId)
      rxHead := s.rxHead ++ [⟨cfmId, param, req.num⟩]
      answers := (req.num.toList.map fun n => (n, param)) ++ s.answers } := by
  have hcfm : req.cfmId = cfmId := by simpa using List.find?_some hfind
  have hmono : ∀ a ∈ s.answers, a ∈ (req.num.toList.map fun n => (n, param)) ++ s.answers :=
    fun a ha => List.mem_append_right _ ha
  refine ⟨{ h.parked with }, ⟨?_, h.lined.search, ?_⟩,
    ⟨h.found.held, ?_, ?_, ?_, h.found.untouched, ?_⟩⟩
  · intro x hx
    rw [← h.lined.line x hx]
    simp only [State.line, List.map_append, List.filter_append, filter_eraseP hfind x]
    by_cases hid : cfmId = x <;> simp [KeMsg.request, Request.has, hcfm, hid]
  · intro msg hmsg n hn
    rw [← List.append_assoc] at hmsg
    rcases List.mem_append.mp hmsg with hmsg | hmsg
    · exact hmono _ (h.lined.replies msg hmsg n hn)
    · obtain rfl := List.mem_singleton.mp hmsg
      simp [show req.num = some n from hn]
  · exact fun msg t ht => hmono _ (h.found.copying msg t ht)
  · exact fun t ht => (h.found.signalling t ht).mono hmono rfl rfl
  · intro n hn
    obtain ⟨hsent, hgone, hgot⟩ := h.found.signalled n hn
    exact ⟨hsent, hgone, hgot.mono hmono rfl rfl⟩
  · intro r hr
    obtain ⟨param, hmem, heq⟩ := h.found.returned r hr
    exact ⟨param, hmono _ hmem, heq⟩

theorem Inv.indicate (h : Inv s) {id : UInt16} {param : List UInt8} (hid : id ∉ awaited) :
    Inv { s with rxHead := s.rxHead ++ [⟨id, param, none⟩] } := by
  refine ⟨{ h.parked with }, ⟨?_, h.lined.search, ?_⟩, { h.found with }⟩
  · intro x hx
    have hne : id ≠ x := by
      rintro rfl
      exact hid hx
    rw [← h.lined.line x hx]
    simp [State.line, KeMsg.request, Request.has, hne]
  · intro msg hmsg n hn
    rw [← List.append_assoc] at hmsg
    rcases List.mem_append.mp hmsg with hmsg | hmsg
    · exact h.lined.replies msg hmsg n hn
    · obtain rfl := List.mem_singleton.mp hmsg
      cases hn

end Lmac

/-! ## The search -/

section Kmsg

variable {s : State ι} {msg : KeMsg} {node : Node}

/-- A search that has not found its node yet goes on. -/
theorem Found.search (h : Found s) {k : Search} {rx : List KeMsg} (hbefore : s.kmsg.held = none)
    (hafter : k.held = none) : Found { s with kmsg := k, rxHead := rx } where
  held t ht := by
    have hk : k.held = some t := ht
    simp [hafter] at hk
  copying msg t ht := by
    have hk : k = .copying msg t := ht
    simp [hk, Search.held] at hafter
  signalling t ht := by
    have hk : k = .signalling t := ht
    simp [hk, Search.held] at hafter
  signalled := h.signalled
  untouched n hn _ := by
    refine h.untouched n hn fun t ht => ?_
    simp [ht, Search.held] at hbefore
  returned := h.returned

theorem Inv.pop (h : Inv s) {rest : List KeMsg} (hk : s.kmsg = .idle) (hrx : s.rxHead = msg :: rest) :
    Inv { s with rxHead := rest, kmsg := .picking msg } := by
  have hline : ({ s with rxHead := rest, kmsg := .picking msg } : State ι).line = s.line := by
    simp [State.line, hk, hrx, Search.msg]
  have hsame : (Search.picking msg).msg ++ rest = s.kmsg.msg ++ s.rxHead := by
    rw [hk, hrx]
    rfl
  refine ⟨{ h.parked with }, ⟨?_, trivial, ?_⟩, h.found.search (by rw [hk]; rfl) rfl⟩
  · rw [hline]
    exact h.lined.line
  · change ∀ m ∈ (Search.picking msg).msg ++ rest, _
    rw [hsame]
    exact h.lined.replies

/-- The search goes on with the same message. -/
theorem Inv.look (h : Inv s) {k : Search} (hmsg : s.kmsg.msg = [msg]) (hk : k.msg = [msg])
    (hstands : k.Stands s.txHead) : Inv { s with kmsg := k } := by
  have hheld : ∀ k' : Search, k'.msg = [msg] → k'.held = none := by
    intro k' hk'
    cases k' <;> first | rfl | cases hk'
  refine ⟨{ h.parked with }, ⟨?_, hstands, ?_⟩, h.found.search (hheld _ hmsg) (hheld _ hk)⟩
  · have hline : ({ s with kmsg := k } : State ι).line = s.line := by
      simp [State.line, hk, hmsg]
    rw [hline]
    exact h.lined.line
  · change ∀ m ∈ k.msg ++ s.rxHead, _
    rw [hk, ← hmsg]
    exact h.lined.replies

/-- A message that matches no node answers no call. -/
theorem Inv.unmatched (h : Inv s) (hmsg : s.kmsg.msg = [msg])
    (hnone : ∀ t ∈ s.txHead, t.reqid ≠ msg.id) : Inv { s with kmsg := .idle } := by
  have hline : s.line = msg.request :: ({ s with kmsg := .idle } : State ι).line := by
    unfold State.line
    rw [hmsg]
    simp [Search.msg]
  have hheld : s.kmsg.held = none := by
    cases hk : s.kmsg <;> first | rfl | (rw [hk] at hmsg; cases hmsg)
  refine ⟨{ h.parked with }, ⟨?_, trivial, ?_⟩, h.found.search hheld rfl⟩
  · intro x hx
    have hx' := h.lined.line x hx
    rw [hline, List.filter_cons] at hx'
    split_ifs at hx' with hhas
    · have hid : msg.id = x := by simpa [Request.has, KeMsg.request] using hhas
      have hempty : s.txHead.filter (Node.has s.sent x) = [] := by
        refine List.filter_eq_nil_iff.mpr fun t ht => ?_
        have hne := hnone t ht
        rw [hid] at hne
        simp [Node.has, hne]
      rw [hempty] at hx'
      cases hx'
    · exact hx'
  · intro m hm
    exact h.lined.replies m (by rw [hmsg]; exact List.mem_cons_of_mem _ hm)

theorem Inv.pick (h : Inv s) (hk : s.kmsg = .picking msg) :
    Inv { s with kmsg := lookAt msg s.txHead.head? } := by
  have hmsg : s.kmsg.msg = [msg] := by rw [hk]; rfl
  rcases htx : s.txHead.head? with _ | t
  · exact h.unmatched hmsg (by simp [List.head?_eq_none_iff.mp htx])
  · obtain ⟨rest, hrest⟩ := List.head?_eq_some_iff.mp htx
    exact h.look (k := .comparing msg t) hmsg rfl ⟨[], rest, hrest, nofun⟩

theorem Inv.compare (h : Inv s) (hk : s.kmsg = .comparing msg node) :
    Inv { s with
      kmsg := if msg.id = node.reqid then .extracting msg node else .advancing msg node } := by
  have hmsg : s.kmsg.msg = [msg] := by rw [hk]; rfl
  have hstands : Passed s.txHead msg node := by
    have hstands := h.lined.search
    rwa [hk] at hstands
  split_ifs with hid
  · exact h.look hmsg rfl ⟨hstands, hid.symm⟩
  · exact h.look hmsg rfl ⟨hstands, Ne.symm hid⟩

theorem coListNext_split {ahead rest : List Node} (h : node ∉ ahead) :
    coListNext node (ahead ++ node :: rest) = rest.head? := by
  induction ahead with
  | nil => simp [coListNext]
  | cons t ahead ih =>
    obtain ⟨hne, hrest⟩ := not_or.mp (mt List.mem_cons.mpr h)
    simp [coListNext, Ne.symm hne, ih hrest]

theorem Inv.advance (h : Inv s) (hk : s.kmsg = .advancing msg node) :
    Inv { s with kmsg := lookAt msg (coListNext node s.txHead) } := by
  have hmsg : s.kmsg.msg = [msg] := by rw [hk]; rfl
  obtain ⟨⟨ahead, rest, hsplit, hahead⟩, hid⟩ :
      Passed s.txHead msg node ∧ node.reqid ≠ msg.id := by
    have hstands := h.lined.search
    rwa [hk] at hstands
  have hnodup := not_mem_ahead (hsplit ▸ h.parked.nodup)
  have hnext : coListNext node s.txHead = rest.head? := by
    rw [hsplit]
    refine coListNext_split fun hmem => hnodup ?_
    exact List.mem_map_of_mem (List.mem_append_left _ hmem)
  have hpassed : ∀ t ∈ ahead ++ [node], t.reqid ≠ msg.id := by
    intro t ht
    rcases List.mem_append.mp ht with ht | ht
    · exact hahead t ht
    · rw [List.mem_singleton.mp ht]
      exact hid
  rw [hnext]
  cases rest with
  | nil => exact h.unmatched hmsg (by rw [hsplit]; exact hpassed)
  | cons t rest =>
    exact h.look (k := .comparing msg t) hmsg rfl
      ⟨ahead ++ [node], rest, by simp [hsplit], hpassed⟩

/-- The first node with the id of the message belongs to the call that the message answers. -/
theorem Inv.answers (h : Inv s) {ahead rest : List Node} (hmsg : s.kmsg.msg = [msg])
    (hsplit : s.txHead = ahead ++ node :: rest) (hahead : ∀ t ∈ ahead, t.reqid ≠ msg.id)
    (hid : node.reqid = msg.id) : s.sent node.num = true ∧ msg.answers = some node.num ∧
      ∀ x ∈ awaited, ((({ s with kmsg := .idle } : State ι).line).filter (Request.has x)).map
        Request.num = ((ahead ++ rest).filter (Node.has s.sent x)).map fun t => some t.num := by
  have hline : s.line = msg.request :: ({ s with kmsg := .idle } : State ι).line := by
    unfold State.line
    rw [hmsg]
    simp [Search.msg]
  have hown : msg.id ∈ awaited := hid ▸ h.parked.ids node (by simp [hsplit])
  have hnone : ahead.filter (Node.has s.sent msg.id) = [] := by
    refine List.filter_eq_nil_iff.mpr fun t ht => ?_
    simp [Node.has, hahead t ht]
  have hhas : Request.has msg.id msg.request = true := by simp [Request.has, KeMsg.request]
  have hfirst := h.lined.line msg.id hown
  rw [hline, List.filter_cons, if_pos hhas, hsplit, List.filter_append, hnone, List.nil_append,
    List.filter_cons] at hfirst
  have hsent : s.sent node.num = true := by
    by_contra hsent
    -- without its own message queued, no later node of this id has one either
    have horder := h.parked.order
    rw [hsplit] at horder
    have hlater := (List.pairwise_cons.mp (List.pairwise_append.mp horder).2.1).1
    have hrest : rest.filter (Node.has s.sent msg.id) = [] := by
      refine List.filter_eq_nil_iff.mpr fun t ht => ?_
      by_cases htid : t.reqid = msg.id
      · have hst : s.sent t.num ≠ true := fun hst => hsent (hlater t ht (hid.trans htid.symm) hst)
        simp [Node.has, hst]
      · simp [Node.has, htid]
    rw [if_neg (by simp [Node.has, hsent]), hrest] at hfirst
    cases hfirst
  rw [if_pos (by simp [Node.has, hid, hsent]), List.map_cons, List.map_cons] at hfirst
  obtain ⟨hanswers, hrest⟩ := List.cons.inj hfirst
  refine ⟨hsent, hanswers, fun x hx => ?_⟩
  have hx' := h.lined.line x hx
  rw [hline, hsplit, List.filter_cons, List.filter_append, List.filter_cons] at hx'
  by_cases hxid : msg.id = x
  · subst hxid
    rw [List.filter_append, hnone, List.nil_append]
    exact hrest
  · have hreq : Request.has x msg.request = false := by simpa [Request.has, KeMsg.request] using hxid
    have hnode : Node.has s.sent x node = false := by simp [Node.has, hid, hxid]
    rw [hreq, hnode] at hx'
    rw [List.filter_append]
    exact hx'

theorem Inv.extract (h : Inv s) (hk : s.kmsg = .extracting msg node) :
    Inv { s with txHead := s.txHead.erase node, kmsg := .copying msg node } := by
  have hp := h.parked
  have hmsg : s.kmsg.msg = [msg] := by rw [hk]; rfl
  obtain ⟨⟨ahead, rest, hsplit, hahead⟩, hid⟩ :
      Passed s.txHead msg node ∧ node.reqid = msg.id := by
    have hstands := h.lined.search
    rwa [hk] at hstands
  obtain ⟨hsent, hanswers, hline⟩ := h.answers hmsg hsplit hahead hid
  have hnot := not_mem_ahead (hsplit ▸ hp.nodup)
  have herase : s.txHead.erase node = ahead ++ rest := by
    have hmem : node ∉ ahead := fun hmem =>
      hnot (List.mem_map_of_mem (List.mem_append_left _ hmem))
    rw [hsplit, List.erase_append_right _ hmem, List.erase_cons_head]
  obtain ⟨hids, hnodup, hfresh, horder⟩ := hp.erase node
  refine ⟨⟨hids, hnodup, hfresh, hp.sent_lt, horder, ?_, hp.distinct⟩, ⟨?_, trivial, ?_⟩,
    ⟨?_, ?_, nofun, ?_, ?_, h.found.returned⟩⟩
  · intro i
    -- the node of a task that may still take it out was not sent
    have howns := hp.tasks i
    cases hpc : s.pc i with
    | idle => trivial
    | parking u =>
      rw [hpc] at howns
      exact ⟨howns.1, howns.2.1, howns.2.2.1, not_mem_erase howns.2.2.2 node⟩
    | sending u | unparking u =>
      rw [hpc] at howns
      have hne : u ≠ node := by
        rintro rfl
        simp [howns.2] at hsent
      exact ⟨(List.mem_erase_of_ne hne).mpr howns.1, howns.2⟩
    | waiting u =>
      rw [hpc] at howns
      exact howns
  · intro x hx
    change _ = ((s.txHead.erase node).filter (Node.has s.sent x)).map _
    rw [herase]
    exact hline x hx
  · intro m hm
    exact h.lined.replies m (by rw [hmsg]; exact List.mem_cons_of_mem _ hm)
  · rintro t ⟨⟩
    refine ⟨hsent, ?_, ?_⟩
    · change node.num ∉ (s.txHead.erase node).map Node.num
      rw [herase]
      exact hnot
    · refine Bool.eq_false_iff.mpr fun hsig => (h.found.signalled node.num hsig).2.1 ?_
      exact List.mem_map_of_mem (by simp [hsplit])
  · rintro m t ⟨⟩
    exact h.lined.replies msg (by rw [hmsg]; exact List.mem_cons_self) node.num hanswers
  · intro n hn
    obtain ⟨hsn, hgone, hgot⟩ := h.found.signalled n hn
    exact ⟨hsn, not_mem_erase hgone node, hgot⟩
  · intro n hn _
    exact h.found.untouched n hn (by simp [hk])

theorem Inv.copy (h : Inv s) (hk : s.kmsg = .copying msg node) :
    Inv { s with
      cfm := Function.update s.cfm node.num (copyCfm (s.cfm node.num) msg.param)
      kmsg := .signalling node } := by
  have hheld := h.found.held node (by rw [hk]; rfl)
  have hbuf : s.cfm node.num = s.given node.num :=
    h.found.untouched node.num hheld.2.2 (by simp [hk])
  refine ⟨{ h.parked with }, ⟨?_, trivial, ?_⟩, ⟨?_, nofun, ?_, ?_, ?_, h.found.returned⟩⟩
  · have hline := h.lined.line
    unfold State.line at hline
    rw [hk] at hline
    exact hline
  · have hreplies := h.lined.replies
    rw [hk] at hreplies
    exact hreplies
  · rintro t ⟨⟩
    exact hheld
  · rintro t ⟨⟩
    refine ⟨msg.param, h.found.copying msg node hk, ?_⟩
    change Function.update s.cfm node.num _ node.num = _
    rw [Function.update_self, hbuf]
  · intro n hn
    obtain ⟨hsn, hgone, param, hmem, hcfm⟩ := h.found.signalled n hn
    have hne : n ≠ node.num := by
      rintro rfl
      rw [hheld.2.2] at hn
      cases hn
    refine ⟨hsn, hgone, param, hmem, ?_⟩
    change Function.update s.cfm node.num _ n = _
    rw [Function.update_of_ne hne]
    exact hcfm
  · intro n hn hother
    have hne : n ≠ node.num := Ne.symm (hother node rfl)
    change Function.update s.cfm node.num _ n = _
    rw [Function.update_of_ne hne]
    exact h.found.untouched n hn (by simp [hk])

theorem Inv.signal (h : Inv s) (hk : s.kmsg = .signalling node) :
    Inv { s with signalled := Function.update s.signalled node.num true, kmsg := .idle } := by
  have hheld := h.found.held node (by rw [hk]; rfl)
  refine ⟨{ h.parked with }, ⟨?_, trivial, ?_⟩, ⟨nofun, nofun, nofun, ?_, ?_, h.found.returned⟩⟩
  · have hline := h.lined.line
    unfold State.line at hline
    rw [hk] at hline
    exact hline
  · have hreplies := h.lined.replies
    rw [hk] at hreplies
    exact hreplies
  · intro n hn
    by_cases hne : n = node.num
    · rw [hne]
      exact ⟨hheld.1, hheld.2.1, h.found.signalling node hk⟩
    · exact h.found.signalled n (by simpa [Function.update_of_ne hne] using hn)
  · intro n hn _
    have hne : n ≠ node.num := by
      rintro rfl
      simp at hn
    refine h.found.untouched n (by simpa [Function.update_of_ne hne] using hn) ?_
    rintro t ht
    rw [hk] at ht
    cases ht
    exact Ne.symm hne

end Kmsg

/-! ## The theorem -/

section Runs

variable [DecidableEq ι] {s s' : State ι}

theorem Inv.sendStep {a : Act ι} (h : Inv s) (hok : inOrder s a = true)
    (hstep : RwMsg.sendStep s a = some s') : Inv s' := by
  cases a with
  | call i cfmId cfm =>
    dsimp only [RwMsg.sendStep] at hstep
    split at hstep
    · split_ifs at hstep with hid
      cases hstep
      exact h.call hid
    · cases hstep
  | post cfmId =>
    dsimp only [RwMsg.sendStep] at hstep
    split_ifs at hstep with hid
    cases hstep
    exact h.post hid
  | park i =>
    dsimp only [RwMsg.sendStep] at hstep
    split at hstep <;> cases hstep
    exact h.park ‹_›
  | queue i =>
    dsimp only [RwMsg.sendStep] at hstep
    split at hstep <;> cases hstep
    exact h.queue ‹_› hok
  | queueFails i =>
    dsimp only [RwMsg.sendStep] at hstep
    split at hstep <;> cases hstep
    exact h.queueFails ‹_›
  | unpark i =>
    dsimp only [RwMsg.sendStep] at hstep
    split at hstep <;> cases hstep
    exact h.unpark ‹_› hok
  | wake i =>
    dsimp only [RwMsg.sendStep] at hstep
    split at hstep
    · split_ifs at hstep with hsig
      cases hstep
      exact h.wake hsig
    · cases hstep
  | _ => cases hstep

omit [DecidableEq ι] in
theorem Inv.lmacStep {a : Act ι} (h : Inv s) (hstep : RwMsg.lmacStep s a = some s') : Inv s' := by
  cases a with
  | take =>
    dsimp only [RwMsg.lmacStep] at hstep
    split at hstep <;> cases hstep
    exact h.take ‹_›
  | answer cfmId param =>
    dsimp only [RwMsg.lmacStep] at hstep
    split at hstep <;> cases hstep
    exact h.answer ‹_›
  | indicate id param =>
    dsimp only [RwMsg.lmacStep] at hstep
    split_ifs at hstep with hid
    cases hstep
    exact h.indicate hid
  | _ => cases hstep

omit [DecidableEq ι] in
theorem Inv.kmsgStep {a : Act ι} (h : Inv s) (hstep : RwMsg.kmsgStep s a = some s') : Inv s' := by
  cases a with
  | pop =>
    dsimp only [RwMsg.kmsgStep] at hstep
    split at hstep <;> cases hstep
    exact h.pop ‹_› ‹_›
  | pick =>
    dsimp only [RwMsg.kmsgStep] at hstep
    split at hstep <;> cases hstep
    exact h.pick ‹_›
  | compare =>
    dsimp only [RwMsg.kmsgStep] at hstep
    split at hstep
    case h_1 msg node hk =>
      by_cases hmem : node ∈ s.txHead
      · rw [if_pos hmem] at hstep
        cases hstep
        exact h.compare hk
      · rw [if_neg hmem] at hstep
        cases hstep
    case h_2 => cases hstep
  | extract =>
    dsimp only [RwMsg.kmsgStep] at hstep
    split at hstep
    · split_ifs at hstep
      cases hstep
      exact h.extract ‹_›
    · cases hstep
  | advance =>
    dsimp only [RwMsg.kmsgStep] at hstep
    split at hstep
    · split_ifs at hstep
      cases hstep
      exact h.advance ‹_›
    · cases hstep
  | copy =>
    dsimp only [RwMsg.kmsgStep] at hstep
    split at hstep <;> cases hstep
    exact h.copy ‹_›
  | signal =>
    dsimp only [RwMsg.kmsgStep] at hstep
    split at hstep <;> cases hstep
    exact h.signal ‹_›
  | _ => cases hstep

theorem Inv.step {a : Act ι} (h : Inv s) (hok : inOrder s a = true) (hstep : RwMsg.step s a = some s') :
    Inv s' := by
  unfold RwMsg.step at hstep
  split at hstep
  all_goals first
    | exact h.lmacStep hstep
    | exact h.kmsgStep hstep
    | exact h.sendStep hok hstep

/-- In every run whose messages are queued in the order of their nodes, a call that returns 0 has
in its buffer what the LMAC answered to its own request. -/
theorem rwMsgSend_own_confirmation {ls : List (Act ι)} {s : State ι}
    (hwithin : Within step (fun s a => inOrder s a = true) (init ι) ls)
    (hrun : runSteps step (init ι) ls = some s)
    (r : Returned) (hr : r ∈ s.returned) :
    ∃ param, (r.num, param) ∈ s.answers ∧ r.cfm = copyCfm r.given param := by
  have hinv : Inv s := invariant_of_within (fun _ _ _ hs hok hstep => hs.step hok hstep)
    inv_init hwithin hrun
  exact hinv.found.returned r hr

end Runs

/-- kmsg hands a confirmation to the node at the head. -/
def deliver {ι : Type} : List (Act ι) := [.pop, .pick, .compare, .extract, .copy, .signal]

/-- Two tasks wait for `ME_STA_ADD_CFM` at the same time. -/
def twoCalls : List (Act (Fin 2)) :=
  [.call 0 0xC0B (some [0, 0]), .call 1 0xC0B (some [0, 0]), .park 0, .park 1, .queue 0, .queue 1,
    .take, .take, .answer 0xC0B [5], .answer 0xC0B [6]] ++ deliver ++ deliver ++ [.wake 1, .wake 0]

theorem rwMsgSend_own_confirmation_twoCalls : ∃ s, runSteps step (init (Fin 2)) twoCalls = some s ∧
    s.returned = [⟨0, some [0, 0], some [5, 0]⟩, ⟨1, some [0, 0], some [6, 0]⟩] ∧
    ∀ r ∈ s.returned, ∃ param, (r.num, param) ∈ s.answers ∧ r.cfm = copyCfm r.given param := by
  have hend : (runSteps step (init (Fin 2)) twoCalls).map State.returned =
      some [⟨0, some [0, 0], some [5, 0]⟩, ⟨1, some [0, 0], some [6, 0]⟩] := by decide +kernel
  obtain ⟨s, hs, hreturned⟩ := Option.map_eq_some_iff.mp hend
  exact ⟨s, hs, hreturned, rwMsgSend_own_confirmation (by decide +kernel) hs⟩

/-- The second task to park is the first to queue. -/
def overtaken : List (Act (Fin 2)) :=
  [.call 0 0xC0B (some [0]), .call 1 0xC0B (some [0]), .park 0, .park 1, .queue 1, .queue 0,
    .take, .answer 0xC0B [6]] ++ deliver ++ [.wake 0]

/-- The call that parked first returns with the confirmation of the other. -/
theorem rwMsgSend_overtaken : ¬ ∀ (ls : List (Act (Fin 2))) (s : State (Fin 2)),
    runSteps step (init (Fin 2)) ls = some s → ∀ r ∈ s.returned,
      ∃ param, (r.num, param) ∈ s.answers ∧ r.cfm = copyCfm r.given param := by
  intro hclaim
  have hend : (runSteps step (init (Fin 2)) overtaken).map (fun s => (s.returned, s.answers)) =
      some ([⟨0, some [0], some [6]⟩], [(1, [6])]) := by decide +kernel
  obtain ⟨s, hs, heq⟩ := Option.map_eq_some_iff.mp hend
  obtain ⟨hreturned, hanswers⟩ := Prod.mk.inj heq
  obtain ⟨param, hmem, -⟩ := hclaim overtaken s hs ⟨0, some [0], some [6]⟩ (by simp [hreturned])
  simp [hanswers] at hmem

end BekenCam.RwMsg
