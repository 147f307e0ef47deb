import DeclBridge.Proofs.Documentation

/-!
Comments that wait, under requests in any order. What a request hands out is told by the requests
in front of it: the longest block that they pushed last and that reaches the line in question. So
every comment is handed out at most once, and none that was dropped before.
-/

namespace DeclBridge.PendingDoc

open Comment (Reaches Adjacent IsBlock)

/-- What can be asked of the comments that wait. -/
inductive Request where
  | push (c : Comment)
  | take
  | takeFor (line : Nat)
  | reset
deriving DecidableEq, Repr

/-- Serves a request: the block that is handed out if the request asks for one, and the comments
that wait then. -/
def serve (b : PendingDoc) : Request → Option (List Comment) × PendingDoc
  | .push c => (none, b.push c)
  | .take => (some b.take.1, b.take.2)
  | .takeFor line => (some (b.takeFor line).1, (b.takeFor line).2)
  | .reset => (none, b.reset)

/-- Whether a request drops the comments that wait: it is a reset, or a blank line parts them from
the comment that it pushes or from the line that it names. -/
def drops (b : PendingDoc) : Request → Bool
  | .push c => b.endsBefore c.line
  | .take => false
  | .takeFor line => b.endsBefore line
  | .reset => true

/-- Serves requests one after the other: the answers, and the comments that wait then. -/
def serveAll (b : PendingDoc) : List Request → List (Option (List Comment)) × PendingDoc
  | [] => ([], b)
  | q :: requests =>
      let (answer, b) := b.serve q
      let (answers, b) := b.serveAll requests
      (answer :: answers, b)

namespace Request

/-- Whether a request asks for a block. -/
def asks : Request → Bool
  | take | takeFor _ => true
  | push _ | reset => false

/-- The comments that are pushed behind the last request that is no push. -/
def IsRun (requests : List Request) (run : List Comment) : Prop :=
  ∃ front, requests = front ++ run.map push ∧ ∀ c, front.getLast? ≠ some (push c)

/-- A block fits a request behind others: the requests directly in front pushed its comments, no
blank line lies between one and the next, and none between the last and the line of the request. -/
structure Fits (before : List Request) (q : Request) (block : List Comment) : Prop where
  pushed : block.map push <:+ before
  adjacent : Adjacent block
  reaches : ∀ line, q = takeFor line → ∀ last ∈ block.getLast?, last.Reaches line

/-- A request that asks for a block gets the longest one that fits. -/
structure Gets (before : List Request) (q : Request) (block : List Comment) : Prop
    extends Fits before q block where
  asks : q.asks
  longest : ∀ other, Fits before q other → other.length ≤ block.length

variable {requests before : List Request} {q : Request} {run block block' : List Comment}
  {c : Comment} {line : Nat}

theorem ne_push_of_asks (h : q.asks) : ∀ c, q ≠ .push c := by
  rintro c rfl
  simp [asks] at h

theorem IsRun.push (h : IsRun requests run) : IsRun (requests ++ [.push c]) (run ++ [c]) := by
  obtain ⟨front, rfl, hfront⟩ := h
  exact ⟨front, by simp, hfront⟩

theorem isRun_concat (h : ∀ c, q ≠ .push c) : IsRun (requests ++ [q]) [] :=
  ⟨requests ++ [q], by simp, by simpa using h⟩

/-- What the last requests pushed is an end of the run. -/
theorem IsRun.map_push_suffix_iff (h : IsRun requests run) :
    block.map .push <:+ requests ↔ block <:+ run := by
  obtain ⟨front, rfl, hfront⟩ := h
  constructor
  · intro hblock
    induction run using List.reverseRecOn generalizing block with
    | nil =>
        rcases block.eq_nil_or_concat with rfl | ⟨init, c, rfl⟩
        · exact List.suffix_rfl
        · -- The last push of the block would be the last request of the front.
          obtain ⟨earlier, hearlier⟩ := hblock
          refine absurd ?_ (hfront c)
          rw [List.map_nil, List.append_nil] at hearlier
          rw [← hearlier]
          simp
    | append_singleton run c ih =>
        rw [List.map_append, List.map_singleton, ← List.append_assoc,
          List.suffix_concat_iff, List.map_eq_nil_iff] at hblock
        rcases hblock with rfl | ⟨init, hblock, hinit⟩
        · exact List.nil_suffix
        · obtain ⟨block, last, rfl, rfl, hlast⟩ := List.map_eq_append_iff.mp hblock
          obtain ⟨c', rfl, hc'⟩ := List.map_eq_singleton_iff.mp hlast
          obtain rfl := Request.push.inj hc'
          exact List.suffix_append_self_iff.mpr (ih hinit)
  · intro hblock
    exact (hblock.map .push).trans (List.suffix_append front _)

theorem Gets.unique (h : Gets before q block) (h' : Gets before q block') : block = block' := by
  have hlength : block.length = block'.length :=
    Nat.le_antisymm (h'.longest block h.toFits) (h.longest block' h'.toFits)
  have hinjective : Function.Injective Request.push := fun _ _ hc => Request.push.inj hc
  apply hinjective.list_map
  refine (List.suffix_of_suffix_length_le h.pushed h'.pushed ?_).eq_of_length ?_ <;>
    simp [hlength]

/-- The block at the end of the run is the longest one that fits if it reaches the line of the
request, should there be one. -/
theorem gets_of_reaches (hrun : IsRun before run) (h : IsBlock run block) (hasks : q.asks)
    (hreaches : ∀ line, q = .takeFor line → ∀ last ∈ block.getLast?, last.Reaches line) :
    Gets before q block where
  pushed := hrun.map_push_suffix_iff.mpr h.suffix
  adjacent := h.adjacent
  reaches := hreaches
  asks := hasks
  longest other hother :=
    h.longest other (hrun.map_push_suffix_iff.mp hother.pushed) hother.adjacent

/-- If the block at the end of the run does not reach a line, no other one does, as all of them end
with the same comment. -/
theorem gets_nil_of_not_reaches (hrun : IsRun before run) (h : IsBlock run block)
    (hnot : ¬ ∀ last ∈ block.getLast?, last.Reaches line) : Gets before (.takeFor line) [] where
  pushed := List.nil_suffix
  adjacent := List.isChain_nil
  reaches := by simp
  asks := rfl
  longest other hother := by
    by_cases hne : other = []
    · rw [hne]
    · have hsuffix := hrun.map_push_suffix_iff.mp hother.pushed
      rw [h.getLast? hsuffix hother.adjacent hne] at hnot
      exact absurd (hother.reaches line rfl) hnot

theorem getElem?_append_map_push (earlier rest : List Request) {i : Nat} (h : i < block.length) :
    (earlier ++ (block.map .push ++ rest))[earlier.length + i]? = some (.push block[i]) := by
  rw [List.getElem?_append_right (Nat.le_add_right _ _), Nat.add_sub_cancel_left,
    List.getElem?_append_left (by rwa [List.length_map]), List.getElem?_map,
    List.getElem?_eq_getElem h]
  rfl

end Request

open Request (IsRun Gets)

/-- How waiting comments come from the requests so far. -/
structure IsBehind (requests : List Request) (b : PendingDoc) : Prop where
  ne_collecting_nil : b ≠ collecting []
  block : ∃ run, IsRun requests run ∧ IsBlock run b.pending

variable {requests before after : List Request} {q : Request} {b : PendingDoc}
  {block : List Comment} {p i j : Nat} {c c' : Comment}

theorem isBehind_idle (h : IsRun requests []) : IsBehind requests idle where
  ne_collecting_nil := by simp
  block := ⟨[], h, Comment.isBlock_nil⟩

/-- A push is one more of the run, and any other request ends the run and leaves nothing. -/
theorem IsBehind.serve (h : IsBehind requests b) (q : Request) :
    IsBehind (requests ++ [q]) (b.serve q).2 := by
  cases q with
  | push c =>
      obtain ⟨run, hrun, hblock⟩ := h.block
      exact ⟨by simp [PendingDoc.serve, push], run ++ [c], hrun.push, isBlock_push hblock⟩
  | take => exact isBehind_idle (Request.isRun_concat (by simp))
  | takeFor line => exact isBehind_idle (Request.isRun_concat (by simp))
  | reset => exact isBehind_idle (Request.isRun_concat (by simp))

theorem serveAll_append (b : PendingDoc) (requests others : List Request) :
    b.serveAll (requests ++ others) =
      ((b.serveAll requests).1 ++ ((b.serveAll requests).2.serveAll others).1,
        ((b.serveAll requests).2.serveAll others).2) := by
  induction requests generalizing b with
  | nil => rfl
  | cons q requests ih => simp only [List.cons_append, serveAll, ih]

theorem length_serveAll (b : PendingDoc) (requests : List Request) :
    (b.serveAll requests).1.length = requests.length := by
  induction requests generalizing b with
  | nil => rfl
  | cons q requests ih => simp only [serveAll, List.length_cons, ih]

theorem isBehind_serveAll (requests : List Request) :
    IsBehind requests (idle.serveAll requests).2 := by
  induction requests using List.reverseRecOn with
  | nil => exact isBehind_idle ⟨[], rfl, by simp⟩
  | append_singleton requests q ih =>
      rw [serveAll_append]
      exact ih.serve q

theorem getLast?_pending_serveAll (h : before.getLast? = some (.push c)) :
    (idle.serveAll before).2.pending.getLast? = some c := by
  obtain ⟨init, rfl⟩ := List.getLast?_eq_some_iff.mp h
  rw [serveAll_append]
  exact List.getLast?_concat

/-- What a request is answered, told by the requests so far. -/
theorem IsBehind.serve_eq_some_iff (h : IsBehind before b) :
    (b.serve q).1 = some block ↔ Gets before q block := by
  have of_gets {taken : List Comment} (htaken : Gets before q taken) :
      some taken = some block ↔ Gets before q block := by
    rw [Option.some.injEq]
    exact ⟨fun heq => heq ▸ htaken, htaken.unique⟩
  have of_not_asks (hanswer : (b.serve q).1 = none) (hasks : ¬ q.asks) :
      (b.serve q).1 = some block ↔ Gets before q block := by
    rw [hanswer]
    exact iff_of_false (Option.some_ne_none block).symm fun h => hasks h.asks
  obtain ⟨run, hrun, hblock⟩ := h.block
  cases q with
  | push c => exact of_not_asks rfl (by simp [Request.asks])
  | take => exact of_gets (Request.gets_of_reaches hrun hblock rfl (by simp))
  | takeFor line =>
      apply of_gets
      rw [takeFor, take]
      by_cases hreaches : ∀ last ∈ b.pending.getLast?, last.Reaches line
      · rw [pending_reaching_of_reaches hreaches]
        refine Request.gets_of_reaches hrun hblock rfl ?_
        rintro line' heq
        rwa [← Request.takeFor.inj heq]
      · rw [pending_reaching_of_not_reaches hreaches]
        exact Request.gets_nil_of_not_reaches hrun hblock hreaches
  | reset => exact of_not_asks rfl (by simp [Request.asks])

theorem getElem?_serveAll (before : List Request) (q : Request) (after : List Request) :
    (idle.serveAll (before ++ q :: after)).1[before.length]? =
      some ((idle.serveAll before).2.serve q).1 := by
  rw [serveAll_append, List.getElem?_append_right (length_serveAll idle before).le,
    length_serveAll, Nat.sub_self]
  rfl

/-- A block among the answers is what the request at its place gets behind those in front of it. -/
theorem gets_of_getElem?_serveAll (h : (idle.serveAll requests).1[i]? = some (some block)) :
    ∃ before q after, requests = before ++ q :: after ∧ before.length = i ∧
      Gets before q block := by
  obtain ⟨hi, -⟩ := List.getElem?_eq_some_iff.mp h
  rw [length_serveAll] at hi
  have hsplit : requests = requests.take i ++ requests[i] :: requests.drop (i + 1) := by simp
  have hlength : (requests.take i).length = i := List.length_take_of_le hi.le
  refine ⟨_, _, _, hsplit, hlength, (isBehind_serveAll (requests.take i)).serve_eq_some_iff.mp ?_⟩
  have hanswer := getElem?_serveAll (requests.take i) requests[i] (requests.drop (i + 1))
  rw [← hsplit, hlength] at hanswer
  exact Option.some.inj (hanswer.symm.trans h)

/-- The comments of a block were pushed one after the other, directly in front of the request that
hands it out. -/
theorem exists_push_of_getElem?_serveAll {k : Nat}
    (h : (idle.serveAll requests).1[i]? = some (some block)) (hk : block[k]? = some c) :
    ∃ p, p + block.length = i + k ∧ requests[p]? = some (.push c) := by
  obtain ⟨before, q, after, rfl, rfl, hgets⟩ := gets_of_getElem?_serveAll h
  obtain ⟨earlier, rfl⟩ := hgets.pushed
  obtain ⟨hlt, rfl⟩ := List.getElem?_eq_some_iff.mp hk
  refine ⟨earlier.length + k, ?_, ?_⟩
  · rw [List.length_append, List.length_map, Nat.add_right_comm]
  · rw [List.append_assoc]
    exact Request.getElem?_append_map_push earlier _ hlt

/-- The request at place `i` hands out a comment that the one at place `p` pushed: in its block, the
comment stands as far from the end as place `p` does from place `i`. -/
def HandsOut (requests : List Request) (p i : Nat) (c : Comment) : Prop :=
  ∃ block k, (idle.serveAll requests).1[i]? = some (some block) ∧ block[k]? = some c ∧
    p + block.length = i + k

theorem HandsOut.exists_split (h : HandsOut requests p i c) :
    ∃ (earlier after : List Request) (block : List Comment) (k : Nat) (q : Request),
      requests = earlier ++ (block.map .push ++ q :: after) ∧ block[k]? = some c ∧
        p = earlier.length + k ∧ i = earlier.length + block.length ∧ q.asks ∧
          Adjacent block := by
  obtain ⟨block, k, hanswer, hk, hp⟩ := h
  obtain ⟨before, q, after, rfl, rfl, hgets⟩ := gets_of_getElem?_serveAll hanswer
  obtain ⟨earlier, rfl⟩ := hgets.pushed
  rw [List.length_append, List.length_map] at hp
  exact ⟨earlier, after, block, k, q, by simp, hk, by omega, by simp, hgets.asks, hgets.adjacent⟩

theorem HandsOut.exists_asks (h : HandsOut requests p i c) :
    p < i ∧ ∃ q, requests[i]? = some q ∧ q.asks := by
  obtain ⟨earlier, after, block, k, q, rfl, hk, rfl, rfl, hasks, -⟩ := h.exists_split
  obtain ⟨hlt, -⟩ := List.getElem?_eq_some_iff.mp hk
  exact ⟨Nat.add_lt_add_left hlt _, q, by simp, hasks⟩

theorem HandsOut.le_of_ne_push (h : HandsOut requests p i c) (hp : p < j)
    (hj : requests[j]? = some q) (hq : ∀ c', q ≠ .push c') : i ≤ j := by
  by_contra hlt
  obtain ⟨earlier, after, block, k, q', rfl, -, rfl, rfl, -, -⟩ := h.exists_split
  obtain ⟨l, rfl⟩ := Nat.exists_eq_add_of_le (Nat.le_of_add_right_le hp.le)
  have hl : l < block.length := Nat.lt_of_add_lt_add_left (Nat.lt_of_not_le hlt)
  rw [Request.getElem?_append_map_push earlier _ hl] at hj
  exact hq _ (Option.some.inj hj).symm

theorem HandsOut.unique (h : HandsOut requests p i c) (h' : HandsOut requests p j c') : i = j := by
  obtain ⟨hi, q, hq, hasks⟩ := h.exists_asks
  obtain ⟨hj, q', hq', hasks'⟩ := h'.exists_asks
  exact Nat.le_antisymm (h.le_of_ne_push hj hq' (Request.ne_push_of_asks hasks'))
    (h'.le_of_ne_push hi hq (Request.ne_push_of_asks hasks))

theorem HandsOut.ne_of_not_asks (h : HandsOut requests p i c) (hj : requests[j]? = some q)
    (hq : ¬ q.asks) : i ≠ j := by
  rintro rfl
  obtain ⟨-, q', hq', hasks⟩ := h.exists_asks
  rw [Option.some.inj (hj.symm.trans hq')] at hq
  exact hq hasks

/-- A comment that a blank line parts from a later push is handed out before that push or never: the
block would have the blank line in it. -/
theorem HandsOut.lt_of_push (h : HandsOut (before ++ .push c' :: after) p i c)
    (hp : p < before.length) (hends : (idle.serveAll before).2.endsBefore c'.line) :
    i < before.length := by
  have hpush : (before ++ .push c' :: after)[before.length]? = some (.push c') := by simp
  have hne := h.ne_of_not_asks hpush (by simp [Request.asks])
  obtain ⟨earlier, rest, block, k, q, hsplit, -, rfl, rfl, -, hadjacent⟩ := h.exists_split
  -- Otherwise `c'` is in the block, behind a comment that does not reach it.
  by_contra hle
  obtain ⟨l, hl⟩ : ∃ l, before.length = earlier.length + (l + 1) :=
    ⟨before.length - earlier.length - 1, by omega⟩
  have hlt : l + 1 < block.length := by omega
  have hlast : before.getLast? = some (.push block[l]) := by
    rw [← Request.getElem?_append_map_push earlier (q :: rest) (Nat.lt_of_succ_lt hlt), ← hsplit,
      List.getElem?_append_left (by omega), List.getLast?_eq_getElem?, hl]
    rfl
  have hnext : block[l + 1] = c' := by
    rw [hsplit, hl, Request.getElem?_append_map_push earlier _ hlt] at hpush
    exact Request.push.inj (Option.some.inj hpush)
  have hreaches : block[l].Reaches c'.line := by
    rw [← hnext]
    exact List.isChain_iff_getElem.mp hadjacent l hlt
  have hnot : (idle.serveAll before).2.endsBefore c'.line = false := by
    rw [endsBefore_eq_false_iff, getLast?_pending_serveAll hlast]
    rintro last ⟨⟩
    exact hreaches
  exact Bool.false_ne_true (hnot.symm.trans hends)

/-- A comment is handed out before any request behind its push drops what waits. -/
theorem HandsOut.lt_of_drops (h : HandsOut (before ++ q :: after) p i c) (hp : p < before.length)
    (hdrops : (idle.serveAll before).2.drops q) : i < before.length := by
  have hq : (before ++ q :: after)[before.length]? = some q := by simp
  cases q with
  | push c' => exact h.lt_of_push hp hdrops
  | take => simp [drops] at hdrops
  | takeFor line =>
      refine (h.le_of_ne_push hp hq (by simp)).lt_of_ne ?_
      rintro rfl
      have hends : (idle.serveAll before).2.endsBefore line = true := hdrops
      have hempty : ((idle.serveAll before).2.takeFor line).1 = [] := by
        rw [takeFor, reaching, if_pos hends]
        rfl
      obtain ⟨block, k, hanswer, hk, -⟩ := h
      rw [getElem?_serveAll, serve, hempty] at hanswer
      rw [← Option.some.inj (Option.some.inj hanswer)] at hk
      simp at hk
  | reset =>
      have hne := h.ne_of_not_asks hq (by simp [Request.asks])
      exact (h.le_of_ne_push hp hq (by simp)).lt_of_ne hne

/-- Requests in any order when nothing waits at first. What waits is never an empty block. Every
request that asks for a block, and no other, gets the longest one that the requests in front of it
pushed last, without a blank line in it or between it and the line in question. Each comment of a
block comes from a push of its own, no comment is handed out twice, and none is handed out behind a
request that dropped what waited. -/
theorem serveAll_handsOut (requests : List Request) :
    (idle.serveAll requests).2 ≠ collecting [] ∧
    (∀ before q after, requests = before ++ q :: after →
      ∃ answer, (idle.serveAll requests).1[before.length]? = some answer ∧
        ∀ block, answer = some block ↔ Gets before q block) ∧
    (∀ i k (block : List Comment) (c : Comment),
      (idle.serveAll requests).1[i]? = some (some block) → block[k]? = some c →
        ∃ p, p + block.length = i + k ∧ requests[p]? = some (.push c)) ∧
    (∀ p i j c c', HandsOut requests p i c → HandsOut requests p j c' → i = j) ∧
    ∀ p i c before q after, HandsOut requests p i c → requests = before ++ q :: after →
      p < before.length → (idle.serveAll before).2.drops q → i < before.length := by
  refine ⟨(isBehind_serveAll requests).ne_collecting_nil, ?_,
    fun _ _ _ _ h hk => exists_push_of_getElem?_serveAll h hk,
    fun _ _ _ _ _ h h' => h.unique h', ?_⟩
  · rintro before q after rfl
    exact ⟨_, getElem?_serveAll before q after,
      fun _ => (isBehind_serveAll before).serve_eq_some_iff⟩
  · rintro p i c before q after h rfl hp hdrops
    exact h.lt_of_drops hp hdrops

/-- A blank line keeps the first comment off. The second one is handed out once, although an equal
one is pushed again, which the reset drops. -/
theorem serveAll_handsOut_detached :
    Gets [.push ⟨"// a", 1⟩, .push ⟨"/* b\n*/", 3⟩] (.takeFor 5) [⟨"/* b\n*/", 3⟩] ∧
    (∀ i c, HandsOut [.push ⟨"// a", 1⟩, .push ⟨"/* b\n*/", 3⟩, .takeFor 5,
      .push ⟨"/* b\n*/", 3⟩, .reset, .take] 1 i c → i = 2) ∧
    ∀ i c, HandsOut [.push ⟨"// a", 1⟩, .push ⟨"/* b\n*/", 3⟩, .takeFor 5,
      .push ⟨"/* b\n*/", 3⟩, .reset, .take] 3 i c → i < 4 := by
  obtain ⟨-, hgets, -, honce, hdrops⟩ := serveAll_handsOut [.push ⟨"// a", 1⟩,
    .push ⟨"/* b\n*/", 3⟩, .takeFor 5, .push ⟨"/* b\n*/", 3⟩, .reset, .take]
  obtain ⟨answer, hanswer, hiff⟩ := hgets [.push ⟨"// a", 1⟩, .push ⟨"/* b\n*/", 3⟩] (.takeFor 5)
    [.push ⟨"/* b\n*/", 3⟩, .reset, .take] rfl
  have hblock : answer = some [⟨"/* b\n*/", 3⟩] := by
    rw [← Option.some.injEq, ← hanswer]
    decide
  have hout : HandsOut [.push ⟨"// a", 1⟩, .push ⟨"/* b\n*/", 3⟩, .takeFor 5,
      .push ⟨"/* b\n*/", 3⟩, .reset, .take] 1 2 ⟨"/* b\n*/", 3⟩ :=
    ⟨[⟨"/* b\n*/", 3⟩], 0, by decide, rfl, rfl⟩
  refine ⟨(hiff _).mp hblock, fun i c h => honce 1 i 2 c _ h hout, fun i c h => ?_⟩
  exact hdrops 3 i c [.push ⟨"// a", 1⟩, .push ⟨"/* b\n*/", 3⟩, .takeFor 5,
    .push ⟨"/* b\n*/", 3⟩] .reset [.take] h rfl (by decide) rfl

end DeclBridge.PendingDoc
