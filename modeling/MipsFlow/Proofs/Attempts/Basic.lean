import Mathlib.Data.PFun
import MipsFlow.Fault
import MipsFlow.Optimizer.Exhaust

/-!
# Computations that may break down

Some operations cannot always be done: there is nothing at a place outside a sequence, nothing on
top of an empty stack, no quotient by zero, and some calls are refused. The optimizer is defined
without them, by recursion over what there is. In the modules of this directory it is defined once
more, step by step, with cursors, stacks and places, and as an *attempt*: it breaks down at the
first operation that cannot be done. What is shown of each step is that it does not break down, and
that it comes to the same result.

An attempt may also go on for ever, because a `loop` has no bound.
-/

namespace MipsFlow

/-- Why an attempt breaks down. -/
inductive Breakdown where
  /-- A call was refused. -/
  | fault (fault : Fault)
  /-- A part of a sequence of `length` elements that is not inside it. -/
  | slice (start stop length : Nat)
  /-- Something was taken from an empty stack or queue. -/
  | nothingLeft
  /-- The search through a graph ran out of blocks before it could leave one. -/
  | unbalancedStack
  | divisionByZero
  /-- A node was added to a drawing of the graph for the second time. -/
  | repeatedNode (id : Nat)
  /-- A node of a drawing of the graph was to be joined to itself. -/
  | selfEdge (id : Nat)
deriving DecidableEq, Repr

/-- A computation that breaks down, or goes on for ever, or has a result. -/
abbrev Attempt (α : Type) := ExceptT Breakdown Part α

namespace Attempt

variable {α β σ : Type}

/-- A call that may be refused. -/
def call (answer : Except Fault α) : Attempt α :=
  match answer with
  | .ok a => pure a
  | .error fault => throw (.fault fault)

/-- The element at a place. -/
def index (xs : List α) (i : Nat) : Attempt α :=
  match xs[i]? with
  | some x => pure x
  | none => throw (.fault (.outOfBounds i xs.length))

/-- The sequence with another element at a place. -/
def store (xs : List α) (i : Nat) (x : α) : Attempt (List α) :=
  if i < xs.length then pure (xs.set i x) else throw (.fault (.outOfBounds i xs.length))

/-- The elements from `start` up to `stop`. -/
def slice (xs : List α) (start stop : Nat) : Attempt (List α) :=
  if start ≤ stop ∧ stop ≤ xs.length then pure ((xs.take stop).drop start)
  else throw (.slice start stop xs.length)

/-- The first element of a stack or queue, and the others. -/
def takeFirst (xs : List α) : Attempt (α × List α) :=
  match xs with
  | x :: rest => pure (x, rest)
  | [] => throw .nothingLeft

/-- How a loop goes on after a step: with the next state, or with what it comes to. -/
def turn : Except Breakdown (σ ⊕ α) → Except Breakdown α ⊕ σ
  | .ok (.inl s) => .inr s
  | .ok (.inr a) => .inl (.ok a)
  | .error breakdown => .inl (.error breakdown)

/-- Repeats a step until it has a result. -/
def loop (body : σ → Attempt (σ ⊕ α)) : σ → Attempt α :=
  PFun.fix fun s => (body s).run.map turn

/-! ## Attempts that succeed -/

@[simp] theorem call_ok (a : α) : call (.ok a) = pure a := rfl

@[simp] theorem call_error (fault : Fault) :
    (call (.error fault) : Attempt α) = throw (.fault fault) := rfl

/-- Nothing is done after a breakdown. -/
@[simp] theorem throw_bind (breakdown : Breakdown) (f : α → Attempt β) :
    (throw breakdown >>= f) = throw breakdown := Part.bind_some _ _

theorem index_eq {xs : List α} {i : Nat} {x : α} (here : xs[i]? = some x) :
    index xs i = pure x := by
  rw [index, here]

@[simp] theorem index_first (x : α) (xs : List α) : index (x :: xs) 0 = pure x := rfl

@[simp] theorem index_second (x y : α) (xs : List α) : index (x :: y :: xs) 1 = pure y := rfl

theorem store_eq {xs : List α} {i : Nat} (inside : i < xs.length) (x : α) :
    store xs i x = pure (xs.set i x) := if_pos inside

/-- The element behind the first part of a sequence. -/
theorem index_middle (done : List α) (x : α) (rest : List α) :
    index (done ++ x :: rest) done.length = pure x := index_eq (by simp)

theorem store_middle (done : List α) (x y : α) (rest : List α) :
    store (done ++ x :: rest) done.length y = pure (done ++ y :: rest) := by
  have inside : done.length < (done ++ x :: rest).length := by simp
  rw [store_eq inside, List.set_append_right _ _ (Nat.le_refl _), Nat.sub_self,
    List.set_cons_zero]

theorem slice_eq {xs : List α} {start stop : Nat} (ordered : start ≤ stop)
    (inside : stop ≤ xs.length) : slice xs start stop = pure ((xs.take stop).drop start) :=
  if_pos ⟨ordered, inside⟩

@[simp] theorem takeFirst_cons (x : α) (xs : List α) : takeFirst (x :: xs) = pure (x, xs) := rfl

/-- What comes after a call that may be refused. -/
theorem call_bind {answer : Except Fault α} {f : α → Attempt β} {g : α → Except Fault β}
    (next : ∀ a, answer = .ok a → f a = call (g a)) :
    (call answer >>= f) = call (answer >>= g) := by
  cases answer with
  | error fault => exact throw_bind ..
  | ok a =>
    rw [call_ok, pure_bind, next a rfl]
    rfl

theorem loop_next {body : σ → Attempt (σ ⊕ α)} {s s' : σ} (next : body s = pure (.inl s')) :
    loop body s = loop body s' := by
  refine PFun.fix_fwd_eq (Part.mem_map_iff _ |>.2 ⟨.ok (.inl s'), ?_, rfl⟩)
  rw [next]
  exact Part.mem_some _

theorem loop_done {body : σ → Attempt (σ ⊕ α)} {s : σ} {a : α} (done : body s = pure (.inr a)) :
    loop body s = pure a := by
  refine Part.eq_some_iff.2 (PFun.fix_stop (Part.mem_map_iff _ |>.2 ⟨.ok (.inr a), ?_, rfl⟩))
  rw [done]
  exact Part.mem_some _

/-- A loop that breaks down in its first turn breaks down. -/
theorem loop_breaks {body : σ → Attempt (σ ⊕ α)} {s : σ} {breakdown : Breakdown}
    (breaks : body s = throw breakdown) : loop body s = throw breakdown := by
  refine Part.eq_some_iff.2
    (PFun.fix_stop (Part.mem_map_iff _ |>.2 ⟨.error breakdown, ?_, rfl⟩))
  rw [breaks]
  exact Part.mem_some _

/-- A loop ends well if each of its turns succeeds, keeps an invariant and lowers a measure. -/
theorem loop_ends {body : σ → Attempt (σ ⊕ α)} (I : σ → Prop) (measure : σ → Nat) (Done : α → Prop)
    (turns : ∀ s, I s → (∃ s', body s = pure (.inl s') ∧ I s' ∧ measure s' < measure s) ∨
      ∃ a, body s = pure (.inr a) ∧ Done a) {s : σ} (holds : I s) :
    ∃ a, loop body s = pure a ∧ Done a := by
  induction bound : measure s using Nat.strongRecOn generalizing s with
  | ind n ih =>
    rcases turns s holds with ⟨s', next, holds, lower⟩ | ⟨a, done, good⟩
    · rw [loop_next next]
      exact ih _ (bound ▸ lower) holds rfl
    · exact ⟨a, loop_done done, good⟩

/-- A loop that takes one step after the other, and remembers whether it took any, comes to the same
as exhausting them. `entry` is where it stands before a step. -/
theorem loop_exhaust {δ : Type} {body : σ → Attempt (σ ⊕ α)} (step : δ → Option δ)
    (entry : δ → Bool → σ) (result : δ → Bool → α)
    (done : ∀ x changed, step x = none → loop body (entry x changed) = pure (result x changed))
    (next : ∀ x y changed, step x = some y →
      loop body (entry x changed) = loop body (entry y true))
    {fuel : Nat} {x : δ} {changed : Bool} (ends : step (exhaust step fuel x) = none) :
    loop body (entry x changed) =
      pure (result (exhaust step fuel x) (changed || (step x).isSome)) := by
  induction fuel generalizing x changed with
  | zero =>
    have idle : step x = none := ends
    rw [done x changed idle, idle, exhaust, Option.isSome_none, Bool.or_false]
  | succ fuel ih =>
    rw [exhaust] at ends ⊢
    cases stepped : step x with
    | none => rw [done x changed stepped, Option.isSome_none, Bool.or_false]
    | some y =>
      simp only [stepped] at ends ⊢
      rw [next x y changed stepped, ih ends, Bool.true_or, Option.isSome_some, Bool.or_true]

/-- Steps that succeed one by one succeed together. -/
theorem mapM_eq {f : α → Attempt β} {g : α → β} {xs : List α}
    (each : ∀ x ∈ xs, f x = pure (g x)) : xs.mapM f = pure (xs.map g) := by
  induction xs with
  | nil => rfl
  | cons x xs ih =>
    rw [List.mapM_cons, each x (List.mem_cons_self ..), pure_bind,
      ih fun y member => each y (List.mem_cons_of_mem _ member), pure_bind, List.map_cons]

theorem forM_eq {f : α → Attempt Unit} {xs : List α} (each : ∀ x ∈ xs, f x = pure ()) :
    xs.forM f = pure () := by
  induction xs with
  | nil => rfl
  | cons x xs ih =>
    obtain ⟨first, later⟩ := List.forall_mem_cons.1 each
    show (f x >>= fun _ => xs.forM f) = pure ()
    rw [first, pure_bind, ih later]

theorem findM?_eq {f : α → Attempt Bool} {g : α → Bool} {xs : List α}
    (each : ∀ x ∈ xs, f x = pure (g x)) : xs.findM? f = pure (xs.find? g) := by
  induction xs with
  | nil => rfl
  | cons x xs ih =>
    obtain ⟨first, later⟩ := List.forall_mem_cons.1 each
    rw [List.findM?, first, pure_bind, List.find?_cons]
    cases g x with
    | true => rfl
    | false => exact ih later

theorem findSomeM?_eq {f : α → Attempt (Option β)} {g : α → Option β} {xs : List α}
    (each : ∀ x ∈ xs, f x = pure (g x)) : xs.findSomeM? f = pure (xs.findSome? g) := by
  induction xs with
  | nil => rfl
  | cons x xs ih =>
    obtain ⟨first, later⟩ := List.forall_mem_cons.1 each
    rw [List.findSomeM?, first, pure_bind, List.findSome?_cons]
    cases g x with
    | none => exact ih later
    | some y => rfl

theorem allM_eq {f : α → Attempt Bool} {g : α → Bool} {xs : List α}
    (each : ∀ x ∈ xs, f x = pure (g x)) : xs.allM f = pure (xs.all g) := by
  induction xs with
  | nil => rfl
  | cons x xs ih =>
    obtain ⟨first, later⟩ := List.forall_mem_cons.1 each
    rw [List.allM, first, pure_bind, List.all_cons]
    cases g x with
    | true => exact ih later
    | false => rfl

/-- The elements at the places that follow each other. -/
theorem mapM_index {xs : List α} {start n : Nat} (inside : start + n ≤ xs.length) :
    (List.range' start n).mapM (index xs) = pure ((xs.drop start).take n) := by
  induction n generalizing start with
  | zero => rfl
  | succ n ih =>
    have here : start < xs.length := by omega
    rw [List.range'_succ, List.mapM_cons, index_eq (List.getElem?_eq_getElem here), pure_bind,
      ih (by omega), pure_bind, List.drop_eq_getElem_cons here, List.take_succ_cons]

/-- Changes that succeed one by one while something holds succeed together. -/
theorem foldlM_eq {f : σ → α → Attempt σ} {g : σ → α → σ} {xs : List α} (I : σ → Prop)
    (each : ∀ s, I s → ∀ x ∈ xs, f s x = pure (g s x) ∧ I (g s x)) {s : σ} (holds : I s) :
    xs.foldlM f s = pure (xs.foldl g s) := by
  induction xs generalizing s with
  | nil => rfl
  | cons x xs ih =>
    obtain ⟨first, kept⟩ := each s holds x (List.mem_cons_self ..)
    rw [List.foldlM_cons, first, pure_bind, List.foldl_cons]
    exact ih (fun s holds y member => each s holds y (List.mem_cons_of_mem _ member)) kept

/-- A loop over the places of a sequence comes to the same as a walk along it, if every turn does
what the walk does with the element at the place and those behind it. -/
theorem foldlM_places {code : List β} {f : σ → Nat → Attempt σ} (walk : σ → List β → σ)
    (walk_nil : ∀ s, walk s [] = s)
    (turns : ∀ s i x, code[i]? = some x → ∃ s', f s i = pure s' ∧
      walk s (x :: code.drop (i + 1)) = walk s' (code.drop (i + 1))) (s : σ) :
    (List.range code.length).foldlM f s = pure (walk s code) := by
  suffices behind : ∀ n i s, i + n = code.length →
      (List.range' i n).foldlM f s = pure (walk s (code.drop i)) by
    rw [List.range_eq_range', behind code.length 0 s (Nat.zero_add _), List.drop_zero]
  intro n
  induction n with
  | zero =>
    intro i s ends
    rw [List.drop_of_length_le (by omega), walk_nil]
    rfl
  | succ n ih =>
    intro i s ends
    have here : i < code.length := by omega
    obtain ⟨s', turned, same⟩ := turns s i code[i] (List.getElem?_eq_getElem here)
    rw [List.range'_succ, List.foldlM_cons, turned, pure_bind, ih (i + 1) s' (by omega),
      List.drop_eq_getElem_cons here, same]

end Attempt

end MipsFlow
