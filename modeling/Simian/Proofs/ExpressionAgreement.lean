import Simian.Proofs.LiteralAgreement

/-!
# Expressions beside the evaluator

Evaluating an expression of a settled program and running its code come to the same: one
more operand with a value like the evaluator's, a value that the call around ends with, or
an error. The proof goes by the rules of the layout, with one case for each. What a call
of a value comes to is a hypothesis here.
-/
namespace Simian

namespace Scene

variable {c : Scene} {table later : SymbolTable} {depth ip next : Nat}
  {pending : List (Value × Value)} {j : Joint}

/-! ### Nesting -/

theorem Stands.withDepth (h : c.Stands table depth ip pending j) (other : Nat) :
    c.Stands table other ip pending
      ⟨j.made, { j.evaluator with depth := other }, j.machine⟩ where
  valid := ⟨h.valid.nextId, h.valid.nextId_machine, h.valid.sink, h.valid.sink_machine,
    h.valid.constants, h.valid.bounds, h.valid.ordered, h.valid.names, h.valid.ids,
    h.valid.supported⟩
  finds := h.finds
  sound := h.sound
  since := ⟨h.since.made, h.since.size_le, h.since.scopes, h.since.globals, h.since.born⟩
  depth := rfl
  calls := h.calls
  frames := h.frames
  values := h.values
  alike := h.alike

theorem Leaves.withDepth {value : Value} (h : c.Leaves value j) (other : Nat) :
    c.Leaves value ⟨j.made, { j.evaluator with depth := other }, j.machine⟩ where
  valid := ⟨h.valid.nextId, h.valid.nextId_machine, h.valid.sink, h.valid.sink_machine,
    h.valid.constants, h.valid.bounds, h.valid.ordered, h.valid.names, h.valid.ids,
    h.valid.supported⟩
  since := ⟨h.since.made, h.since.size_le, h.since.scopes, h.since.globals, h.since.born⟩
  calls := h.calls
  step := h.step

theorem nested_apply {α : Type} {body : Eval α} {evaluator : Evaluator}
    (h : evaluator.depth < evaluator.limits.maxDepth) : Eval.nested body evaluator =
      ((body { evaluator with depth := evaluator.depth + 1 }).1,
        { (body { evaluator with depth := evaluator.depth + 1 }).2 with
          depth := (body { evaluator with depth := evaluator.depth + 1 }).2.depth - 1 }) := by
  obtain ⟨scopes, sink, nextId, depth, calls, limits⟩ := evaluator
  unfold Eval.nested
  dsimp only at h ⊢
  rw [if_neg (Nat.not_le.mpr h)]

/-- The evaluator goes one level deeper and comes back. -/
theorem Stands.nested (h : c.Stands table depth ip pending j) (hlt : depth < c.setting.maxDepth)
    {body : Eval Value} (hbody : ∀ j, c.Stands table (depth + 1) ip pending j →
      c.Agrees j (body j.evaluator) (c.Gives later (depth + 1) next pending)) :
    c.Agrees j (Eval.nested body j.evaluator) (c.Gives later depth next pending) := by
  rw [nested_apply (by rw [h.depth, h.valid.maxDepth]; exact hlt), h.depth]
  have hagrees := hbody _ (h.withDepth (depth + 1))
  dsimp only at hagrees
  generalize body { j.evaluator with depth := depth + 1 } = outcome at hagrees
  obtain ⟨result, evaluator⟩ := outcome
  cases result with
  | ok value =>
    refine Snapshot.Meets.imp hagrees ?_
    rintro s ⟨made, other, hs⟩
    have hdepth : evaluator.depth - 1 = depth := by
      rw [show evaluator.depth = depth + 1 from hs.depth]
      rfl
    exact ⟨made, other, hdepth ▸ hs.withDepth (evaluator.depth - 1)⟩
  | error unwind =>
    cases unwind with
    | returned value =>
      refine Snapshot.Meets.imp hagrees ?_
      rintro s ⟨made, hs⟩
      exact ⟨made, hs.withDepth _⟩
    | failed error => exact hagrees

/-! ### What an expression may refer to -/

/-- The names that occur free are there, those in function literals stay what they are, and there
are levels left for the nesting. -/
structure Admits (c : Scene) (depth : Nat) (free closed : List String) (nesting : Nat) : Prop where
  sees : ∀ name ∈ free, c.Sees name
  closes : ∀ name ∈ closed, name ∈ c.closed
  pinned : c.act.owner = none → ∀ name ∈ closed, c.setting.pinned name
  levels : depth + nesting ≤ c.setting.maxDepth

namespace Admits

variable {free free' closed closed' : List String} {nesting nesting' : Nat}

theorem deeper (h : c.Admits depth free closed (nesting + 1)) :
    c.Admits (depth + 1) free closed nesting :=
  ⟨h.sees, h.closes, h.pinned, by have := h.levels; omega⟩

theorem lt (h : c.Admits depth free closed (nesting + 1)) : depth < c.setting.maxDepth := by
  have := h.levels
  omega

theorem sub (h : c.Admits depth free closed nesting) (hf : ∀ name ∈ free', name ∈ free)
    (hc : ∀ name ∈ closed', name ∈ closed) (hn : nesting' ≤ nesting) :
    c.Admits depth free' closed' nesting' where
  sees := fun name hm => h.sees name (hf name hm)
  closes := fun name hm => h.closes name (hc name hm)
  pinned := fun ho name hm => h.pinned ho name (hc name hm)
  levels := by
    have := h.levels
    omega

theorem left (h : c.Admits depth (free ++ free') (closed ++ closed') (max nesting nesting')) :
    c.Admits depth free closed nesting where
  sees := fun name hn => h.sees name (List.mem_append_left _ hn)
  closes := fun name hn => h.closes name (List.mem_append_left _ hn)
  pinned := fun ho name hn => h.pinned ho name (List.mem_append_left _ hn)
  levels := by
    have := h.levels
    omega

theorem right (h : c.Admits depth (free ++ free') (closed ++ closed') (max nesting nesting')) :
    c.Admits depth free' closed' nesting' where
  sees := fun name hn => h.sees name (List.mem_append_right _ hn)
  closes := fun name hn => h.closes name (List.mem_append_right _ hn)
  pinned := fun ho name hn => h.pinned ho name (List.mem_append_right _ hn)
  levels := by
    have := h.levels
    omega

end Admits

/-- A call of a value with arguments that the running call makes comes to the same as the
instruction for it. -/
def CallsAgree (bounds : Bounds) (act : Activation) (call : Value → List Value → Eval Value) :
    Prop :=
  ∀ (c : Scene) (table : SymbolTable) (depth ip : Nat) (pending operands : List (Value × Value))
    (callee other : Value) (j : Joint), c.setting.bounds = bounds → c.act = act →
    c.Stands table depth ip (pending ++ (callee, other) :: operands) j →
    c.act.site.code.Holds ip ⟨.call, [operands.length]⟩ →
    c.Agrees j (call callee (operands.map Prod.fst) j.evaluator)
      (c.Gives table depth (ip + 2) pending)

/-! ### Statements -/

theorem Stands.leaves {value other : Value}
    (h : c.Stands table depth ip (pending ++ [(value, other)]) j)
    (hat : c.act.site.code.Holds ip ⟨.returnValue, []⟩) : c.Leaves value j where
  valid := h.valid
  since := h.since
  calls := h.calls
  step := by
    obtain ⟨hother, hrest⟩ := h.top_one _
    have hstep := h.step_eq hat
    rw [show ∀ (s : Snapshot) frame, s.execute frame ⟨.returnValue, []⟩ = s.dropped.leave s.top
      from fun _ _ => rfl, hother, hrest] at hstep
    exact ⟨_, _, other, h.alike_last, hstep⟩

theorem Stands.leaves_null (h : c.Stands table depth ip pending j)
    (hat : c.act.site.code.Holds ip ⟨.returnNull, []⟩) : c.Leaves .null j where
  valid := h.valid
  since := h.since
  calls := h.calls
  step := ⟨_, _, .null, .null, by rw [h.step_eq hat, h.values]; rfl⟩

theorem agrees_of_leaves {α : Type} {value : Value} {done : α → Joint → Prop}
    (h : c.Leaves value j) :
    c.Agrees j ((Attempt.fail (.returned value) : Eval α) j.evaluator) done :=
  Snapshot.Meets.here ⟨j.made, h⟩

theorem Stands.pushNull (h : c.Stands table depth ip pending j)
    (hat : c.act.site.code.Holds ip ⟨.pushNull, []⟩) : j.machine.Meets c.setting.Apart fun s =>
      c.Gives table depth (ip + 1) pending .null ⟨j.made, j.evaluator, s⟩ :=
  (h.push hat rfl .null).imp fun _ hs => ⟨_, hs⟩

theorem Stands.pushBool (h : c.Stands table depth ip pending j) (truth : Bool)
    (hat : c.act.site.code.Holds ip ⟨if truth then .pushTrue else .pushFalse, []⟩) :
    j.machine.Meets c.setting.Apart fun s => c.Gives table depth (ip + 1) pending (.bool truth)
      ⟨j.made, j.evaluator, s⟩ := by
  cases truth with
  | false => exact (h.push hat rfl (.bool false)).imp fun s hs => ⟨_, hs⟩
  | true => exact (h.push hat rfl (.bool true)).imp fun s hs => ⟨_, hs⟩

/-- The end of a logical operator, which the code comes to by its second operand. -/
theorem Stands.truth {q : Nat} {value other : Value}
    (h : c.Stands table depth q (pending ++ [(value, other)]) j)
    (htest : c.act.site.code.Holds q ⟨.jumpNotTruthy, [q + 7]⟩)
    (htrue : c.act.site.code.Holds (q + 3) ⟨.pushTrue, []⟩)
    (hjump : c.act.site.code.Holds (q + 4) ⟨.jump, [q + 8]⟩)
    (hfalse : c.act.site.code.Holds (q + 7) ⟨.pushFalse, []⟩) :
    j.machine.Meets c.setting.Apart fun s =>
      c.Gives table depth (q + 8) pending (.bool value.isTruthy) ⟨j.made, j.evaluator, s⟩ := by
  refine (h.jumpNotTruthy htest).bind fun s hs => ?_
  generalize value.isTruthy = truth at hs ⊢
  cases truth with
  | false => exact hs.pushBool false hfalse
  | true =>
    refine (hs.pushBool true htrue).bind ?_
    rintro s ⟨other, hs⟩
    exact (hs.jump hjump).imp fun s hs => ⟨other, hs⟩

end Scene

open Scene

variable {call : Value → List Value → Eval Value}

mutual

theorem ExprAt.agrees {tree : Expr} {site : Site} {t t' : SymbolTable} {p q : Nat}
    (hat : ExprAt site t p tree t' q) {c : Scene}
    (hcall : CallsAgree c.setting.bounds c.act call) {depth : Nat}
    {pending : List (Value × Value)} {j : Joint} (hsite : c.act.site = site)
    (hs : tree.isSettled = true) (hd : tree.isDistinct = true)
    (ha : c.Admits depth tree.free tree.closed tree.nesting)
    (h : c.Stands t depth p pending j) :
    c.Agrees j (Eval.expr call c.act.scope tree j.evaluator) (c.Gives t' depth q pending) := by
  match hat with
  | .integer _ hpool hload =>
    rw [Eval.expr]
    exact h.nested ha.lt fun j h =>
      agrees_of_gives (h.constant (hsite ▸ hload) (hsite ▸ hpool) (.int _))
  | .string _ hpool hload =>
    rw [Eval.expr]
    exact h.nested ha.lt fun j h =>
      agrees_of_gives (h.constant (hsite ▸ hload) (hsite ▸ hpool) (.str _))
  | .boolean hpush =>
    rw [Eval.expr]
    exact h.nested ha.lt fun j h => agrees_of_gives (h.pushBool _ (hsite ▸ hpush))
  | .ident hr hl =>
    rw [Eval.expr]
    exact h.nested ha.lt fun j h =>
      h.lookUp (ha.sees _ (List.mem_singleton_self _)) hr (hsite ▸ hl)
  | .unary ho hop =>
    rw [Eval.expr]
    refine h.nested ha.lt fun j h => ?_
    refine (ho.agrees hcall hsite hs hd ha.deeper h).bind ?_
    rintro value j ⟨other, h⟩
    exact h.unary _ (hsite ▸ hop)
  | .binary hl hr hop =>
    rw [Expr.isSettled, Bool.and_eq_true] at hs
    rw [Expr.isDistinct, Bool.and_eq_true] at hd
    rw [Eval.expr]
    refine h.nested ha.lt fun j h => ?_
    refine (hl.agrees hcall hsite hs.1 hd.1 ha.deeper.left h).bind ?_
    rintro left j ⟨first, h⟩
    refine (hr.agrees hcall hsite hs.2 hd.2 ha.deeper.right h).bind ?_
    rintro right j ⟨second, h⟩
    exact h.binary _ (hsite ▸ hop)
  | .and hl htest hr htest' htrue hjump hfalse =>
    rw [Expr.isSettled, Bool.and_eq_true] at hs
    rw [Expr.isDistinct, Bool.and_eq_true] at hd
    rw [Eval.expr]
    refine h.nested ha.lt fun j h => ?_
    refine (hl.agrees hcall hsite hs.1 hd.1 ha.deeper.left h).bind ?_
    rintro left j ⟨first, h⟩
    refine .of_meets ((h.jumpNotTruthy (hsite ▸ htest)).imp fun s h => ⟨j.made, ?_⟩)
    cases htruth : left.isTruthy with
    | false =>
      rw [htruth] at h
      have hadds := hr.adds (Expr.isDirect_of_isSettled hs.2) h.sound
      exact agrees_of_gives
        ((h.grows hadds.sound hadds.grown.grows).pushBool false (hsite ▸ hfalse))
    | true =>
      rw [htruth] at h
      refine (hr.agrees hcall hsite hs.2 hd.2 ha.deeper.right h).bind ?_
      rintro right j ⟨second, h⟩
      exact agrees_of_gives
        (h.truth (hsite ▸ htest') (hsite ▸ htrue) (hsite ▸ hjump) (hsite ▸ hfalse))
  | .or hl htest htrue' hjump' hr htest' htrue hjump hfalse =>
    rw [Expr.isSettled, Bool.and_eq_true] at hs
    rw [Expr.isDistinct, Bool.and_eq_true] at hd
    rw [Eval.expr]
    refine h.nested ha.lt fun j h => ?_
    refine (hl.agrees hcall hsite hs.1 hd.1 ha.deeper.left h).bind ?_
    rintro left j ⟨first, h⟩
    refine .of_meets ((h.jumpNotTruthy (hsite ▸ htest)).imp fun s h => ⟨j.made, ?_⟩)
    cases htruth : left.isTruthy with
    | false =>
      rw [htruth] at h
      refine (hr.agrees hcall hsite hs.2 hd.2 ha.deeper.right h).bind ?_
      rintro right j ⟨second, h⟩
      exact agrees_of_gives
        (h.truth (hsite ▸ htest') (hsite ▸ htrue) (hsite ▸ hjump) (hsite ▸ hfalse))
    | true =>
      rw [htruth] at h
      have hadds := hr.adds (Expr.isDirect_of_isSettled hs.2) h.sound
      refine agrees_of_gives (((h.grows hadds.sound hadds.grown.grows).pushBool true
        (hsite ▸ htrue')).bind ?_)
      rintro s ⟨other, h⟩
      exact (h.jump (hsite ▸ hjump')).imp fun s h => ⟨other, h⟩
  | .bump ho _ hpool hload hop =>
    rw [Eval.expr]
    refine h.nested ha.lt fun j h => ?_
    refine (ho.agrees hcall hsite hs hd ha.deeper h).bind ?_
    rintro value j ⟨other, h⟩
    refine .of_meets ((h.constant (hsite ▸ hload) (hsite ▸ hpool) (.int 1)).imp ?_)
    rintro s ⟨one, h⟩
    exact ⟨j.made, h.binary _ (hsite ▸ hop)⟩
  | .ifThen hc htest hb hjump hnull =>
    rw [Expr.isSettled, Bool.and_eq_true] at hs
    rw [Expr.isDistinct, Bool.and_eq_true] at hd
    rw [Eval.expr]
    refine h.nested ha.lt fun j h => ?_
    refine (hc.agrees hcall hsite hs.1 hd.1 ha.deeper.left h).bind ?_
    rintro condition j ⟨other, h⟩
    refine .of_meets ((h.jumpNotTruthy (hsite ▸ htest)).imp fun s h => ⟨j.made, ?_⟩)
    cases htruth : condition.isTruthy with
    | false =>
      rw [htruth] at h
      have hadds := hb.adds (areDirectInBlock_of_settled hs.2) h.sound
      exact agrees_of_gives ((h.grows hadds.sound hadds.grown.grows).pushNull (hsite ▸ hnull))
    | true =>
      rw [htruth] at h
      rw [if_pos rfl, Eval.block]
      refine (hb.agrees hcall rfl hsite hs.2 hd.2 ha.deeper.right h fun _ => rfl).andThen ?_
      rintro value j ⟨other, h⟩
      exact (h.jump (hsite ▸ hjump)).imp fun s h => ⟨other, h⟩
  | .ifElse hc htest hb hjump hb' =>
    rw [Expr.isSettled, Bool.and_eq_true, Bool.and_eq_true] at hs
    rw [Expr.isDistinct, Bool.and_eq_true, Bool.and_eq_true] at hd
    rw [Eval.expr]
    refine h.nested ha.lt fun j h => ?_
    refine (hc.agrees hcall hsite hs.1 hd.1 ha.deeper.left h).bind ?_
    rintro condition j ⟨other, h⟩
    refine .of_meets ((h.jumpNotTruthy (hsite ▸ htest)).imp fun s h => ⟨j.made, ?_⟩)
    have hfirst := hb.adds (areDirectInBlock_of_settled hs.2.1) h.sound
    cases htruth : condition.isTruthy with
    | false =>
      rw [htruth] at h
      rw [if_neg Bool.false_ne_true, Eval.block]
      exact hb'.agrees hcall rfl hsite hs.2.2 hd.2.2 ha.deeper.right.right
        (h.grows hfirst.sound hfirst.grown.grows) fun _ => rfl
    | true =>
      rw [htruth] at h
      rw [if_pos rfl, Eval.block]
      refine (hb.agrees hcall rfl hsite hs.2.1 hd.2.1 ha.deeper.right.left h
        fun _ => rfl).andThen ?_
      rintro value j ⟨other, h⟩
      have hsecond := hb'.adds (areDirectInBlock_of_settled hs.2.2) h.sound
      exact ((h.grows hsecond.sound hsecond.grown.grows).jump (hsite ▸ hjump)).imp
        fun s h => ⟨other, h⟩
  | .function _ hb hfun hpool hlocals hle hcaptures hle' hleave hload _ hconstant hclosure =>
    rw [Expr.isSettled] at hs
    rw [Expr.isDistinct, Bool.and_eq_true, decide_eq_true_iff] at hd
    rw [Eval.expr]
    refine h.nested ha.lt fun j h => ?_
    have hlevels := ha.levels
    exact h.literal hb hfun (hsite ▸ hpool) hlocals hcaptures hleave (hsite ▸ hload)
      (hsite ▸ hconstant) (hsite ▸ hclosure) hs hd.1 hd.2
      (by rw [Expr.nesting] at hlevels; dsimp only [Block.statements]; omega)
      (fun name => mem_free_function_iff) ha.sees ha.closes ha.pinned
  | .array _ he hmake =>
    rw [Eval.expr]
    refine h.nested ha.lt fun j h => ?_
    rw [← List.append_nil pending] at h
    refine (he.agrees hcall hsite hs hd ha.deeper h rfl).bind ?_
    rintro results j ⟨loaded, rfl, hlength, h⟩
    rw [List.length_nil, Nat.zero_add] at hlength
    exact agrees_of_gives (h.array (hsite ▸ hlength ▸ hmake))
  | .hash _ he hmake =>
    rw [Eval.expr]
    refine h.nested ha.lt fun j h => ?_
    rw [← List.append_nil pending, ← show flat [] = [] from rfl] at h
    refine (he.agrees hcall hsite hs hd ha.deeper h rfl).bind ?_
    rintro results j ⟨loaded, rfl, hlength, h⟩
    rw [List.length_nil, Nat.zero_add] at hlength
    exact h.hash (hsite ▸ hlength ▸ hmake)
  | .call _ hc hargs hgo =>
    rw [Expr.isSettled, Bool.and_eq_true] at hs
    rw [Expr.isDistinct, Bool.and_eq_true] at hd
    rw [Eval.expr]
    refine h.nested ha.lt fun j h => ?_
    refine (hc.agrees hcall hsite hs.1 hd.1 ha.deeper.left h).bind ?_
    rintro callee j ⟨other, h⟩
    rw [← List.append_nil (_ ++ _)] at h
    refine (hargs.agrees hcall hsite hs.2 hd.2 ha.deeper.right h rfl).bind ?_
    rintro results j ⟨loaded, rfl, hlength, h⟩
    rw [List.length_nil, Nat.zero_add] at hlength
    rw [List.append_assoc] at h
    exact hcall c _ _ _ _ loaded callee other j rfl rfl h (hsite ▸ hlength ▸ hgo)
  | .index hc hk hop =>
    rw [Expr.isSettled, Bool.and_eq_true] at hs
    rw [Expr.isDistinct, Bool.and_eq_true] at hd
    rw [Eval.expr]
    refine h.nested ha.lt fun j h => ?_
    refine (hc.agrees hcall hsite hs.1 hd.1 ha.deeper.left h).bind ?_
    rintro collection j ⟨first, h⟩
    refine (hk.agrees hcall hsite hs.2 hd.2 ha.deeper.right h).bind ?_
    rintro key j ⟨second, h⟩
    exact h.index (hsite ▸ hop)

theorem ExprsAt.agrees {items : List Expr} {site : Site} {t t' : SymbolTable} {p q : Nat}
    (hat : ExprsAt site t p items t' q) {c : Scene}
    (hcall : CallsAgree c.setting.bounds c.act call) {depth : Nat}
    {pending taken : List (Value × Value)} {j : Joint} (hsite : c.act.site = site)
    (hs : areSettledExprs items = true) (hd : areDistinctExprs items = true)
    (ha : c.Admits depth (freeInExprs items) (closedInExprs items) (nestingOfExprs items))
    (h : c.Stands t depth p (pending ++ taken) j) {values : List Value}
    (hv : values = (taken.map Prod.fst).reverse) :
    c.Agrees j (Eval.exprs call c.act.scope values items j.evaluator) fun results later =>
      ∃ loaded, results = loaded.map Prod.fst ∧ loaded.length = taken.length + items.length ∧
        c.Stands t' depth q (pending ++ loaded) later := by
  match hat with
  | .nil =>
    rw [Eval.exprs]
    exact .here ⟨j.made, taken, by rw [hv, List.reverse_reverse], rfl, h⟩
  | .cons hi hr =>
    rw [areSettledExprs, Bool.and_eq_true] at hs
    rw [areDistinctExprs, Bool.and_eq_true] at hd
    rw [Eval.exprs]
    refine (hi.agrees hcall hsite hs.1 hd.1 ha.left h).bind ?_
    rintro value j ⟨other, h⟩
    rw [List.append_assoc] at h
    refine (hr.agrees hcall hsite hs.2 hd.2 ha.right h ?_).imp ?_
    · rw [hv, List.map_append, List.reverse_append]
      rfl
    · rintro results j ⟨loaded, hresults, hlength, h⟩
      refine ⟨loaded, hresults, ?_, h⟩
      rw [hlength, List.length_append, List.length_singleton, List.length_cons]
      omega

theorem EntriesAt.agrees {pairs : List (Expr × Expr)} {site : Site} {t t' : SymbolTable} {p q : Nat}
    (hat : EntriesAt site t p pairs t' q) {c : Scene}
    (hcall : CallsAgree c.setting.bounds c.act call) {depth : Nat}
    {pending : List (Value × Value)} {taken : List ((Value × Value) × (Value × Value))} {j : Joint}
    (hsite : c.act.site = site)
    (hs : areSettledEntries pairs = true) (hd : areDistinctEntries pairs = true)
    (ha : c.Admits depth (freeInEntries pairs) (closedInEntries pairs) (nestingOfEntries pairs))
    (h : c.Stands t depth p (pending ++ flat taken) j) {values : List (Value × Value)}
    (hv : values = (taken.map fun entry => (entry.1.1, entry.2.1)).reverse) :
    c.Agrees j (Eval.entries call c.act.scope values pairs j.evaluator) fun results later =>
      ∃ loaded, results = (loaded.map fun entry => (entry.1.1, entry.2.1)) ∧
        loaded.length = taken.length + pairs.length ∧
        c.Stands t' depth q (pending ++ flat loaded) later := by
  match hat with
  | .nil =>
    rw [Eval.entries]
    exact .here ⟨j.made, taken, by rw [hv, List.reverse_reverse], rfl, h⟩
  | .cons hk hw hr =>
    rw [areSettledEntries, Bool.and_eq_true, Bool.and_eq_true] at hs
    rw [areDistinctEntries, Bool.and_eq_true, Bool.and_eq_true] at hd
    rw [Eval.entries]
    refine (hk.agrees hcall hsite hs.1 hd.1 ha.left h).bind ?_
    rintro key j ⟨other, h⟩
    refine (hw.agrees hcall hsite hs.2.1 hd.2.1 ha.right.left h).bind ?_
    rintro value j ⟨found, h⟩
    have hflat : pending ++ flat taken ++ [(key, other)] ++ [(value, found)] =
        pending ++ flat (taken ++ [((key, other), (value, found))]) := by
      simp [flat]
    rw [hflat] at h
    refine (hr.agrees hcall hsite hs.2.2 hd.2.2 ha.right.right h ?_).imp ?_
    · rw [hv, List.map_append, List.reverse_append]
      rfl
    · rintro results j ⟨loaded, hresults, hlength, h⟩
      refine ⟨loaded, hresults, ?_, h⟩
      rw [hlength, List.length_append, List.length_singleton, List.length_cons]
      omega

/-- A statement that binds nothing. -/
theorem StmtAt.agrees {statement : Stmt} {rest : List Stmt} {site : Site} {t t' : SymbolTable}
    {p q : Nat} (hat : StmtAt site t p statement t' q) {c : Scene}
    (hcall : CallsAgree c.setting.bounds c.act call)
    {depth : Nat} {pending : List (Value × Value)} {j : Joint} (hsite : c.act.site = site)
    (hs : areSettledInBlock (statement :: rest) = true) (hd : statement.isDistinct = true)
    (ha : c.Admits depth (freeInStmts [statement]) statement.closed statement.nesting)
    (h : c.Stands t depth p pending j) :
    c.Agrees j (Eval.stmt call c.act.scope statement j.evaluator) fun result later =>
      ∃ tree span value, statement = .expr tree span ∧ result = some value ∧
        later.Alike value later.machine.lastPopped ∧ c.Stands t' depth q pending later := by
  match hat with
  | .bindGlobal .. | .bindLocal .. => cases hs
  | .ret he hret =>
    rw [areSettledInBlock, Bool.and_eq_true] at hs
    rw [Eval.stmt]
    refine (he.agrees hcall hsite hs.1 hd (ha.sub (fun _ => List.mem_append_left _)
      (fun _ hn => hn) (Nat.le_refl _)) h).bind ?_
    rintro value j ⟨other, h⟩
    exact agrees_of_leaves (h.leaves (hsite ▸ hret))
  | .retNull hret =>
    rw [Eval.stmt]
    exact agrees_of_leaves (h.leaves_null (hsite ▸ hret))
  | .expr he hpop =>
    rw [areSettledInBlock, Bool.and_eq_true] at hs
    rw [Eval.stmt]
    refine (he.agrees hcall hsite hs.1 hd (ha.sub (fun _ => List.mem_append_left _)
      (fun _ hn => hn) (Nat.le_refl _)) h).bind ?_
    rintro value j ⟨other, h⟩
    refine Snapshot.Meets.imp (h.drop (hsite ▸ hpop)) ?_
    rintro s ⟨hs, hlast⟩
    exact ⟨j.made, _, _, value, rfl, rfl, hlast ▸ h.alike_last, hs⟩

/-- A block that binds nothing leaves the value of its last statement. -/
theorem TailAt.agrees {closing : Closing} {statements : List Stmt} {site : Site}
    {t t' : SymbolTable} {p q : Nat} (hat : TailAt closing site t p statements t' q)
    {c : Scene} (hcall : CallsAgree c.setting.bounds c.act call) {depth : Nat}
    {pending : List (Value × Value)} {j : Joint}
    (hclosing : closing = .leaves) (hsite : c.act.site = site)
    (hs : areSettledInBlock statements = true) (hd : areDistinctStmts statements = true)
    (ha : c.Admits depth (freeInStmts statements) (closedInStmts statements)
      (nestingOfStmts statements))
    (h : c.Stands t depth p pending j) {last : Value} (hlast : statements = [] → last = .null) :
    c.Agrees j (Eval.stmts call c.act.scope last statements j.evaluator)
      (c.Gives t' depth q pending) := by
  match hat with
  | .nil hnull =>
    rw [Eval.stmts, hlast rfl]
    exact agrees_of_gives (h.pushNull (by rw [hclosing] at hnull; exact hsite ▸ hnull))
  | .bind .. => cases hs
  | .ret hst | .retNull hst =>
    rw [areDistinctStmts, Bool.and_eq_true] at hd
    rw [Eval.stmts]
    refine (hst.agrees hcall hsite hs hd.1 (ha.sub (fun _ hn => hn)
      (fun _ => List.mem_append_left _) (Nat.le_max_left _ _)) h).bind ?_
    rintro result j ⟨_, _, _, hne, _⟩
    cases hne
  | .value he =>
    rw [areSettledInBlock, Bool.and_eq_true] at hs
    rw [areDistinctStmts, Bool.and_eq_true] at hd
    rw [Eval.stmts, Eval.stmt]
    refine Joint.Agrees.bind (?_ : c.Agrees j _ fun result later =>
      ∃ value, result = some value ∧ c.Gives t' depth q pending value later) ?_
    · refine (he.agrees hcall hsite hs.1 hd.1 ha.left h).bind fun value j h => ?_
      exact .here ⟨j.made, value, rfl, h⟩
    · rintro _ j ⟨value, rfl, h⟩
      rw [Eval.stmts]
      exact .here ⟨j.made, h⟩
  | .result _ _ => cases hclosing
  | .cons hst hrest =>
    rw [areDistinctStmts, Bool.and_eq_true] at hd
    rw [Eval.stmts]
    refine (hst.agrees hcall hsite hs hd.1 (ha.sub (fun _ hn => mem_freeInStmts_cons.mpr (.inl hn))
      (fun _ => List.mem_append_left _) (Nat.le_max_left _ _)) h).bind ?_
    rintro _ j ⟨_, _, value, rfl, rfl, _, h⟩
    exact hrest.agrees hcall hclosing hsite (areSettledInBlock_rest hs) hd.2 ha.right h nofun

end

end Simian
