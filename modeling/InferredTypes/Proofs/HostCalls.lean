import InferredTypes.Proofs.SmallPrograms
import InferredTypes.Proofs.Values
import InferredTypes.ScriptedHost
import Mathlib.Data.List.Dedup

/-! Hosts whose answers lead back into inference, in whatever circles. While one question about an
expression is being answered, no other is about the same expression. So requests come to an end,
and no more questions are open at a time than there are expressions. -/
namespace InferredTypes

/-- The expression and the guard of a question that may lead back into inference. -/
def Event.call? : Event → Option (NodeId × Guard)
  | asked (.staticType expr g) | asked (.elementType expr g) => some (expr, g)
  | _ => none

namespace Flight.Visits
variable {g v : Guard} {root e : Expr}

theorem mem_reach (visits : known.Visits g root v e) : e ∈ root.reach := by
  cases visits with
  | source => exact root.mem_reach_self
  | branch _ mem => exact Expr.mem_reach_of_branch mem e.mem_reach_self

theorem subset (visits : known.Visits g root v e) : g.inFlight ⊆ v.inFlight := by
  cases visits with
  | source => exact List.Subset.refl _
  | branch => exact List.subset_append_left _ _

theorem depth_le (visits : known.Visits g root v e) : g.depth ≤ v.depth := by
  cases visits with
  | source => exact Nat.le_refl _
  | branch =>
    have deeper := g.depth_enter root.id
    exact Nat.le_of_lt (deeper ▸ Nat.lt_succ_self _)

/-- Behind the mark of a visited expression, one more of the listed ids is in flight. -/
theorem idle_lt (visits : known.Visits g root v e) {ids : List NodeId} (listed : root.id ∈ ids)
    (fresh : e.id ∉ v.inFlight) : (v.enter e.id).idle ids < g.idle ids := by
  cases visits with
  | source => exact Guard.idle_enter_lt fresh listed
  | branch free =>
    exact Nat.lt_of_le_of_lt (Guard.idle_enter_le _ _ ids) (Guard.idle_enter_lt free listed)

end Flight.Visits

open Request

theorem Request.quiet_uncalled : Quiet fun e => e.call? = none := by
  intro e none
  unfold Event.guards at none
  split at none <;> simp_all [Event.call?]

/-- A declaration whose source is in flight gets the top type, and nothing is asked about
expressions. -/
theorem Host.settles_infer_held {host : Host} {d : Decl} {e : Expr} {g : Guard}
    (active : (host.kind d.typeRef).isActive = true) (source : d.source? = some e)
    (held : e.id ∈ g.inFlight) :
    Settles (host.infer d) g (· = some (host.topType d.id)) fun event => event.call? = none := by
  let J := tracing Unit quiet_uncalled.composes
  have refused (answer : Expr → Request (Option Ty)) :
      J.Opens (fun _ => answer) (fun _ _ ty => ty = none) g e :=
    ⟨⟨fun _ => each_singleton.2 rfl, fun _ => each_singleton.2 rfl⟩, fun fresh => absurd held fresh⟩
  have inferred := J.infer (w := g) (d := d) (fun _ => host) (fun _ => rfl)
    (fun _ _ ty => ty = none) (fun _ _ ty => ty = none) fun root found v f visits => by
      obtain rfl := Option.some.inj (found.symm.trans source)
      cases visits with
      | source => exact ⟨refused _, refused _⟩
      | branch free => exact absurd held free
  refine J.mono inferred fun ty result => ?_
  rw [Flight.ofDecl_known_iff.1 result]
  exact Semantics.inferredAt_of_held active source held

namespace ReplySheet
variable {sheet : ReplySheet} {g : Guard} {k : Nat}

/-- The declarations that answers lead to. -/
def decls (sheet : ReplySheet) : List Decl :=
  (sheet.types ++ sheet.elements).filterMap fun
    | (_, .known _) => none
    | (_, .inferred d) => some d

/-- The ids of the sources, with their branches, of a declaration and of those that answers lead
to. -/
def exprIds (sheet : ReplySheet) (d : Decl) : List NodeId :=
  (((d :: sheet.decls).filterMap Decl.source?).flatMap Expr.reach).map Expr.id

/-- What the host does about a question, apart from recording it. -/
def answerTo (sheet : ReplySheet) : Question → Request (Option Ty)
  | .staticType expr _ => reply sheet.host.infer sheet.types expr
  | .elementType expr _ => reply sheet.host.infer sheet.elements expr
  | _ => pure none

/-- A journal in which, right behind each question about an expression, stand the events of
answering it, while the questions about `waiting` are all still being answered. A question is about
an expression that is in flight, at a depth above `floor`, and that no waiting question is about;
with it, at most `bound` questions wait. -/
inductive Transcript (sheet : ReplySheet) (floor bound : Nat) :
    (waiting : List NodeId) → List Event → Prop
  | nil {waiting : List NodeId} : Transcript sheet floor bound waiting []
  | note {waiting : List NodeId} {e : Event} {events : List Event} (plain : e.call? = none)
      (rest : Transcript sheet floor bound waiting events) :
      Transcript sheet floor bound waiting (e :: events)
  | call {waiting : List NodeId} {q : Question} {expr : NodeId} {guard : Guard} {ty : Option Ty}
      {inner : Journal} {events : List Event} (asks : (Event.asked q).call? = some (expr, guard))
      (inFlight : expr ∈ guard.inFlight) (above : floor < guard.depth) (other : expr ∉ waiting)
      (room : waiting.length < bound) (answers : Runs (sheet.answerTo q) guard ty inner)
      (inside : Transcript sheet floor bound (expr :: waiting) inner.toList)
      (rest : Transcript sheet floor bound waiting events) :
      Transcript sheet floor bound waiting (.asked q :: (inner.toList ++ events))

section
variable {floor bound : Nat} {waiting : List NodeId}

theorem Transcript.append {xs ys : List Event} (first : sheet.Transcript floor bound waiting xs)
    (second : sheet.Transcript floor bound waiting ys) :
    sheet.Transcript floor bound waiting (xs ++ ys) := by
  induction first with
  | nil => exact second
  | note plain _ ih => exact .note plain (ih second)
  | call asks inFlight above other room answers inside _ _ ih =>
    rw [List.cons_append, List.append_assoc]
    exact .call asks inFlight above other room answers inside (ih second)

theorem composes_transcript (sheet : ReplySheet) (floor bound : Nat) (waiting : List NodeId) :
    Composes (sheet.Transcript floor bound waiting) where
  nil := .nil
  note e guardless := .note (quiet_uncalled e guardless) .nil
  append _ _ := .append

/-- Computations that return, all in the same way and with such a journal. -/
abbrev transcribing (sheet : ReplySheet) (floor bound : Nat) (waiting : List NodeId) :
    Judgment Nat .known :=
  tracing Nat (sheet.composes_transcript floor bound waiting)

theorem Transcript.call_inFlight {events : List Event}
    (h : sheet.Transcript floor bound waiting events) {e : Event} (mem : e ∈ events)
    {expr : NodeId} {guard : Guard} (asks : e.call? = some (expr, guard)) :
    expr ∈ guard.inFlight ∧ floor < guard.depth := by
  induction h with
  | nil => simp at mem
  | note plain _ ih =>
    rcases List.mem_cons.1 mem with rfl | mem
    · simp [plain] at asks
    · exact ih mem
  | call asked inFlight above _ _ _ _ _ inner outer =>
    rcases List.mem_cons.1 mem with rfl | mem
    · rw [asked] at asks
      obtain ⟨rfl, rfl⟩ := Prod.mk.inj (Option.some.inj asks)
      exact ⟨inFlight, above⟩
    · rcases List.mem_append.1 mem with mem | mem
      · exact inner mem
      · exact outer mem

end

/-- The ids of the expressions that those declarations get their types from. -/
def originIds (sheet : ReplySheet) : List NodeId :=
  sheet.decls.filterMap fun d => d.source?.map Expr.id

/-- The number of levels that the host is built with. -/
def levels (sheet : ReplySheet) : Nat :=
  sheet.types.length + sheet.elements.length + 1

theorem idle_lt_levels (sheet : ReplySheet) (g : Guard) :
    g.idle sheet.originIds < sheet.levels := by
  apply Nat.lt_succ_of_le
  apply Nat.le_trans (g.idle_le _)
  apply Nat.le_trans (List.length_filterMap_le _ _)
  apply Nat.le_trans (List.length_filterMap_le _ _)
  exact Nat.le_of_eq List.length_append

theorem mem_decls {expr : NodeId} {d : Decl} {replies : List (NodeId × Reply)}
    (part : replies ⊆ sheet.types ++ sheet.elements)
    (found : Assoc.firstWith expr replies = some (.inferred d)) : d ∈ sheet.decls :=
  List.mem_filterMap.2 ⟨(expr, .inferred d), part (Assoc.mem_of_firstWith found), rfl⟩

theorem mem_originIds {d : Decl} (listed : d ∈ sheet.decls) {e : Expr}
    (source : d.source? = some e) : e.id ∈ sheet.originIds :=
  List.mem_filterMap.2 ⟨d, listed, by simp [source]⟩

theorem mem_exprIds {d other : Decl} (mem : other ∈ d :: sheet.decls) {root f : Expr}
    (source : other.source? = some root) (reached : f ∈ root.reach) : f.id ∈ sheet.exprIds d := by
  apply List.mem_map_of_mem
  exact List.mem_flatMap.2 ⟨root, List.mem_filterMap.2 ⟨other, mem, source⟩, reached⟩

/-- The questions that wait are about different expressions, all of them listed and in flight. -/
structure Waits (ids waiting : List NodeId) (g : Guard) : Prop where
  nodup : waiting.Nodup
  listed : waiting ⊆ ids
  inFlight : waiting ⊆ g.inFlight

section
variable {ids waiting : List NodeId}

theorem Waits.nil : Waits ids [] g :=
  ⟨List.nodup_nil, List.nil_subset ids, List.nil_subset g.inFlight⟩

/-- The next question is about an expression that was not in flight, so about none that waits. -/
theorem Waits.enter (waits : Waits ids waiting g) {key : NodeId} (fresh : key ∉ g.inFlight)
    (listed : key ∈ ids) : Waits ids (key :: waiting) (g.enter key) where
  nodup := List.nodup_cons.2 ⟨fun mem => fresh (waits.inFlight mem), waits.nodup⟩
  listed := List.cons_subset.2 ⟨listed, waits.listed⟩
  inFlight := by
    intro other mem
    rcases List.mem_cons.1 mem with rfl | mem
    · simp [Guard.enter]
    · exact List.mem_append_left _ (waits.inFlight mem)

theorem Waits.visit (waits : Waits ids waiting g) {v : Guard} {root e : Expr}
    (visits : Flight.known.Visits g root v e) : Waits ids waiting v :=
  ⟨waits.nodup, waits.listed, fun _ mem => visits.subset (waits.inFlight mem)⟩

theorem Waits.length_le (waits : Waits ids waiting g) : waiting.length ≤ ids.dedup.length := by
  apply waits.nodup.length_le_of_subset
  intro key mem
  exact List.mem_dedup.2 (waits.listed mem)

/-- From level `k` on, questions back are traced where fewer than `k` sources are not in flight. -/
def TracedBelow (sheet : ReplySheet) (ids : List NodeId) (floor k : Nat) : Prop :=
  ∀ d ∈ sheet.decls, ∀ g waiting, g.idle sheet.originIds < k → floor ≤ g.depth →
    Waits ids waiting g → (sheet.transcribing floor ids.dedup.length waiting).Holds
      (fun i => Host.below sheet.answer (i + k) d) g fun _ => True

variable {floor : Nat}

theorem TracedBelow.reply (below : sheet.TracedBelow ids floor k)
    {replies : List (NodeId × Reply)} (part : replies ⊆ sheet.types ++ sheet.elements)
    (expr : NodeId) (idle : g.idle sheet.originIds < k) (above : floor ≤ g.depth)
    (waits : Waits ids waiting g) :
    (sheet.transcribing floor ids.dedup.length waiting).Holds
      (fun i => ReplySheet.reply (Host.below sheet.answer (i + k)) replies expr) g
      fun _ => True := by
  unfold ReplySheet.reply
  cases found : Assoc.firstWith expr replies with
  | none => exact (sheet.transcribing _ _ _).pure trivial
  | some listed =>
    cases listed with
    | known ty => exact (sheet.transcribing _ _ _).pure trivial
    | inferred d => exact below d (mem_decls part found) g waiting idle above waits

/-- A question stands in the transcript before the events of answering it. -/
theorem holds_asking {q : Guard → Question} {key : NodeId} {m : Nat → Request (Option Ty)}
    (i : Nat) (asks : (Event.asked (q g)).call? = some (key, g)) (above : floor < g.depth)
    (waits : Waits ids (key :: waiting) g) (answers : sheet.answerTo (q g) = m i)
    (inside : (sheet.transcribing floor ids.dedup.length (key :: waiting)).Holds m g
      fun _ => True) :
    (sheet.transcribing floor ids.dedup.length waiting).Holds (fun i => Request.asking q (m i)) g
      fun _ => True := by
  obtain ⟨ty, inner, runs, -, transcript⟩ := inside
  refine ⟨ty, #[.asked (q g)] ++ inner, fun i => (runs i).asking q, trivial, ?_⟩
  have other : key ∉ waiting := (List.nodup_cons.1 waits.nodup).1
  have answered : Runs (sheet.answerTo (q g)) g ty inner := answers ▸ runs i
  have whole := Transcript.call asks (waits.inFlight List.mem_cons_self) above other
    waits.length_le answered transcript .nil
  simpa using whole

/-- A request is traced once the questions back below it are. -/
theorem TracedBelow.infer (below : sheet.TracedBelow ids floor k) (hk : k ≤ sheet.levels)
    {d : Decl} (listed : ∀ root, d.source? = some root → ∀ f ∈ root.reach, f.id ∈ ids)
    (idle : ∀ root, d.source? = some root → ∀ v f, Flight.known.Visits g root v f →
      f.id ∉ v.inFlight → (v.enter f.id).idle sheet.originIds < k)
    (above : floor ≤ g.depth) (waits : Waits ids waiting g) :
    (sheet.transcribing floor ids.dedup.length waiting).Holds
      (fun i => (Host.unroll sheet.answer (i + k)).infer d) g fun _ => True := by
  simp only [Host.unroll_eq]
  apply (sheet.transcribing _ _ _).infer_any
    (fun i => sheet.answer (Host.below sheet.answer (i + k))) fun _ => rfl
  intro root source v f visits
  -- The host itself stands at the level one above `sheet.levels`.
  have level : sheet.levels + 1 - k + k = sheet.levels + 1 := Nat.sub_add_cancel (by omega)
  have allows : (sheet.transcribing floor ids.dedup.length waiting).Allows v f.id :=
    ⟨fun _ => .note rfl .nil, fun _ => .note rfl .nil⟩
  have deeper : floor < (v.enter f.id).depth := by
    have along := visits.depth_le
    rw [Guard.depth_enter]
    omega
  have waits (fresh : f.id ∉ v.inFlight) :=
    (waits.visit visits).enter fresh (listed root source f visits.mem_reach)
  have answered {replies : List (NodeId × Reply)} (fresh : f.id ∉ v.inFlight)
      (part : replies ⊆ sheet.types ++ sheet.elements) :=
    below.reply part f.id (idle root source v f visits fresh) (Nat.le_of_lt deeper) (waits fresh)
  constructor
  · refine ⟨allows, fun fresh => ?_⟩
    refine holds_asking (sheet.levels + 1 - k) rfl deeper (waits fresh) ?_
      (answered fresh (List.subset_append_left _ _))
    rw [level]
    rfl
  · refine ⟨allows, fun fresh => ?_⟩
    refine holds_asking (sheet.levels + 1 - k) rfl deeper (waits fresh) ?_
      (answered fresh (List.subset_append_right _ _))
    rw [level]
    rfl

/-- Each question back enters a source that was not in flight, so one level less is enough. -/
theorem tracedBelow (sheet : ReplySheet) (d : Decl) (floor k : Nat) (hk : k ≤ sheet.levels) :
    sheet.TracedBelow (sheet.exprIds d) floor k := by
  induction k with
  | zero =>
    intro other _ g waiting idle
    exact absurd idle (Nat.not_lt_zero _)
  | succ k ih =>
    intro other mem g waiting idle above waits
    -- All that `other` asks is asked behind its source, which is listed: `ih` applies there.
    apply (ih (by omega)).infer (by omega) _ _ above waits
    · intro root source f reached
      exact mem_exprIds (List.mem_cons_of_mem d mem) source reached
    · intro root source v f visits fresh
      have fewer := visits.idle_lt (mem_originIds mem source) fresh
      omega

end

/-- Listed declarations are answered alike at all levels that the host may be built with. -/
theorem below_eq {d : Decl} (mem : d ∈ sheet.decls) {m n : Nat} (hm : sheet.levels ≤ m)
    (hn : sheet.levels ≤ n) : Host.below sheet.answer m d = Host.below sheet.answer n d := by
  have below := sheet.tracedBelow d 0 sheet.levels (Nat.le_refl _)
  exact eq_of_tracing (fun n => Host.below sheet.answer n d) _
    (fun g => below d mem g [] (sheet.idle_lt_levels g) (Nat.zero_le _) .nil) hm hn

theorem unroll_eq_host (sheet : ReplySheet) (extra : Nat) :
    Host.unroll sheet.answer (sheet.levels + extra) = sheet.host := by
  have same {replies : List (NodeId × Reply)} (part : replies ⊆ sheet.types ++ sheet.elements)
      (expr : NodeId) : reply (Host.below sheet.answer (sheet.levels + extra)) replies expr =
        reply (Host.below sheet.answer sheet.levels) replies expr := by
    unfold reply
    cases found : Assoc.firstWith expr replies with
    | none => rfl
    | some listed =>
      cases listed with
      | known ty => rfl
      | inferred d => exact below_eq (mem_decls part found) (Nat.le_add_right _ _) (Nat.le_refl _)
  change Host.unroll sheet.answer _ = Host.unroll sheet.answer sheet.levels
  simp only [Host.unroll_eq, answer]
  congr 1
  · funext e
    exact same (by simp) e.id
  · funext e
    exact same (by simp) e.id

/-- A host with listed answers, however they lead back into inference, comes to an end: the levels
that it is built with are never used up. Every question about an expression is asked while that
expression is in flight, above the depth at the start. Questions that are open at the same time are
about different expressions, so no more are open than there are expressions in the declarations. A
request for a declaration whose source is in flight asks nothing about expressions and gives the top
type. -/
theorem reentry_comes_to_an_end (sheet : ReplySheet) (d : Decl) (g : Guard) :
    (∃ ty events, Runs (sheet.host.infer d) g ty events ∧
      (∀ e ∈ events, ∀ expr guard, e.call? = some (expr, guard) →
        expr ∈ guard.inFlight ∧ g.depth < guard.depth) ∧
      sheet.Transcript g.depth (sheet.exprIds d).dedup.length [] events.toList) ∧
    (∀ source, (sheet.semantics.kind d.typeRef).isActive = true → d.source? = some source →
      source.id ∈ g.inFlight →
      ∃ events, Runs (sheet.host.infer d) g (some (sheet.semantics.topType d.id)) events ∧
        ∀ e ∈ events, e.call? = none) ∧
    sheet.answer sheet.host.infer = sheet.host ∧
    ∀ extra, Host.unroll sheet.answer (sheet.levels + extra) = sheet.host := by
  refine ⟨?_, ?_, sheet.unroll_eq_host 1, sheet.unroll_eq_host⟩
  · have below := sheet.tracedBelow d g.depth sheet.levels (Nat.le_refl _)
    obtain ⟨ty, events, runs, -, transcript⟩ := below.infer (d := d) (Nat.le_refl _)
      (fun root source f reached => mem_exprIds List.mem_cons_self source reached)
      (fun _ _ v f _ _ => sheet.idle_lt_levels (v.enter f.id)) (Nat.le_refl g.depth) .nil
    have run : Runs ((Host.unroll sheet.answer (0 + sheet.levels)).infer d) g ty events := runs 0
    rw [Nat.zero_add] at run
    refine ⟨ty, events, run, ?_, transcript⟩
    intro e mem expr guard asks
    exact transcript.call_inFlight (Array.mem_def.1 mem) asks
  · intro source active found held
    obtain ⟨_, events, runs, rfl, plain⟩ :=
      @Host.settles_infer_held sheet.host d source g active found held
    exact ⟨events, runs (), fun e mem => plain e (Array.mem_def.1 mem)⟩

/-- A variable with the value 1. -/
def tangledVariable : Decl :=
  Environment.valDecl 10 "x" (.other ⟨⟨1⟩, ⟨0, 0⟩⟩)

/-- A parameter of a loop over 2. -/
def tangledParameter : Decl :=
  .parameter ⟨⟨⟨11⟩, ⟨0, 0⟩⟩, "y", some ⟨⟨⟨0⟩, ⟨0, 0⟩⟩, "val", [], 0⟩,
    .foreachLoop ⟨⟨12⟩, ⟨0, 0⟩⟩ (some (.other ⟨⟨2⟩, ⟨0, 0⟩⟩))⟩

/-- The variable has the type of the parameter, and the loop yields the type of the variable. -/
def tangledSheet : ReplySheet where
  semantics := .listed [("val", "lombok.val")] [] []
  types := [(⟨1⟩, .inferred tangledParameter)]
  elements := [(⟨2⟩, .inferred tangledVariable)]

/-- Two questions are open at a time, as many as there are expressions; the third request is
refused. -/
theorem tangledSheet_comes_to_an_end :
    (∃ events, Runs (tangledSheet.host.infer tangledVariable) .empty
        (some (.named "Top#10" [])) events ∧
      events.toList.filterMap Event.call? = [(⟨1⟩, ⟨[⟨1⟩]⟩), (⟨2⟩, ⟨[⟨1⟩, ⟨2⟩]⟩)] ∧
      tangledSheet.Transcript 0 2 [] events.toList) ∧
    ∃ events, Runs (tangledSheet.host.infer tangledVariable) ⟨[⟨1⟩, ⟨2⟩]⟩
        (some (.named "Top#10" [])) events ∧ ∀ e ∈ events, e.call? = none := by
  constructor
  · obtain ⟨ty, events, runs, -, transcript⟩ :=
      (reentry_comes_to_an_end tangledSheet tangledVariable .empty).1
    obtain ⟨journal, result, calls⟩ : ∃ journal,
        tangledSheet.host.infer tangledVariable .fresh =
          .ok (some (.named "Top#10" [])) ⟨.empty, journal⟩ ∧
        journal.toList.filterMap Event.call? = [(⟨1⟩, ⟨[⟨1⟩]⟩), (⟨2⟩, ⟨[⟨1⟩, ⟨2⟩]⟩)] :=
      ⟨_, rfl, rfl⟩
    have same := (runs #[]).symm.trans result
    obtain ⟨rfl, rfl⟩ : ty = some (.named "Top#10" []) ∧ events = journal := by simpa using same
    exact ⟨events, runs, calls, transcript⟩
  · exact (reentry_comes_to_an_end tangledSheet tangledVariable ⟨[⟨1⟩, ⟨2⟩]⟩).2.1
      (.other ⟨⟨1⟩, ⟨0, 0⟩⟩) rfl rfl (by decide)

end ReplySheet
end InferredTypes
