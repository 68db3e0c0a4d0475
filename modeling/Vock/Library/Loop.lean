import Mathlib.Computability.StateTransition
import Mathlib.Data.Fintype.Pigeonhole

/-!
# Loops as partial step functions

A loop is a step function `f : σ → Option σ` that answers `none` where the loop is left.
Mathlib's `StateTransition` says what such a loop reaches (`Reaches`) and what it ends in
(`eval`). This module adds the computable side, `exec`, which takes a bounded number of rounds,
and the three rules the loops of a program are settled with:

* an invariant carried by every round holds wherever the loop gets (`reaches_invariant`);
* a measure that every round lowers ends the loop within its value (`exec_done`);
* over finitely many states, a loop runs forever exactly when it can get onto a cycle
  (`not_dom_iff_cycle`).

Two more relate loops: a function that commutes with the rounds carries results over
(`eval_map`), and a loop on extended states first runs as on the plain ones (`eval_extend`).

A loop over a list is a fold. What holds after each of its rounds is settled by an invariant that the
rounds of one kind keep and a round of another kind breaks (`forall_prefix_iff`).
-/

namespace Vock.Library

open StateTransition Relation List

variable {σ : Type*} {f : σ → Option σ} {s s' t : σ} {n : Nat} {P : σ → Prop} {α τ : Type*} {f' : τ → Option τ}

/-- The state after at most `n` rounds. Where `f` answers `none` the loop is over and its state
stands. -/
def exec (f : σ → Option σ) : Nat → σ → σ
  | 0, s => s
  | n + 1, s =>
    match f s with
    | none => s
    | some s' => exec f n s'

/-- The states that at most `n` rounds go through. -/
def visited (f : σ → Option σ) : Nat → σ → List σ
  | 0, s => [s]
  | n + 1, s => s :: (match f s with | none => [] | some s' => visited f n s')

theorem visited_of_none (h : f s = none) (n : Nat) : visited f n s = [s] := by
  cases n with
  | zero => rfl
  | succ n => simp [visited, h]

theorem visited_succ_of_some (h : f s = some s') (n : Nat) :
    visited f (n + 1) s = s :: visited f n s' := by
  simp [visited, h]

theorem exec_of_none (h : f s = none) (n : Nat) : exec f n s = s := by
  cases n with
  | zero => rfl
  | succ n => simp [exec, h]

theorem exec_succ_of_some (h : f s = some s') (n : Nat) :
    exec f (n + 1) s = exec f n s' := by
  simp [exec, h]

/-- Rounds compose. -/
theorem exec_add (m n : Nat) (s : σ) : exec f (m + n) s = exec f n (exec f m s) := by
  induction m generalizing s with
  | zero => rw [Nat.zero_add]; rfl
  | succ m ih =>
    cases h : f s with
    | none => rw [exec_of_none h, exec_of_none h, exec_of_none h]
    | some s' =>
      rw [Nat.add_right_comm, exec_succ_of_some h, exec_succ_of_some h, ih]

/-- The last round, read from the end. -/
theorem exec_succ (n : Nat) (s : σ) :
    exec f (n + 1) s = (f (exec f n s)).getD (exec f n s) := by
  rw [exec_add]
  cases h : f (exec f n s) with
  | none => rw [exec_of_none h]; rfl
  | some s' => rw [exec_succ_of_some h]; rfl

theorem reaches_exec (f : σ → Option σ) (n : Nat) (s : σ) : Reaches f s (exec f n s) := by
  induction n generalizing s with
  | zero => exact .refl
  | succ n ih =>
    cases h : f s with
    | none => rw [exec_of_none h]; exact .refl
    | some s' => rw [exec_succ_of_some h]; exact .head h (ih s')

/-- Whatever a loop reaches, it reaches in some number of rounds. -/
theorem exists_exec_of_reaches (h : Reaches f s t) : ∃ n, exec f n s = t := by
  induction h with
  | refl => exact ⟨0, rfl⟩
  | tail _ hstep ih =>
    obtain ⟨n, rfl⟩ := ih
    refine ⟨n + 1, ?_⟩
    rw [exec_succ, Option.mem_def.mp hstep]
    rfl

/-- A bounded run that has come to its end is the loop's result. -/
theorem exec_mem_eval (h : f (exec f n s) = none) : exec f n s ∈ eval f s :=
  mem_eval.mpr ⟨reaches_exec f n s, h⟩

/-- The invariant rule. -/
theorem reaches_invariant (keeps : ∀ s s', P s → f s = some s' → P s') (h : Reaches f s t) (init : P s) : P t := by
  induction h with
  | refl => exact init
  | tail _ hstep ih => exact keeps _ _ ih hstep

/-- What holds wherever a loop gets holds now, and wherever it gets from the next state. -/
theorem forall_reaches_of_some (h : f s = some s') :
    (∀ t, Reaches f s t → P t) ↔ P s ∧ ∀ t, Reaches f s' t → P t := by
  constructor
  · intro hall
    exact ⟨hall s .refl, fun t ht => hall t (.head h ht)⟩
  · rintro ⟨hs, hall⟩ t ht
    obtain rfl | ⟨u, hu, hut⟩ := ReflTransGen.cases_head ht
    · exact hs
    · rw [Option.mem_def, h, Option.some_inj] at hu
      exact hall t (hu ▸ hut)

theorem forall_reaches_of_none (h : f s = none) : (∀ t, Reaches f s t → P t) ↔ P s := by
  constructor
  · exact fun hall => hall s .refl
  · intro hs t ht
    obtain rfl | ⟨u, hu, -⟩ := ReflTransGen.cases_head ht
    · exact hs
    · rw [h] at hu
      cases hu

/-- The measure rule: a measure that every round lowers bounds the rounds. The lowering may use an
invariant of the loop. -/
theorem exec_done (keeps : ∀ s s', P s → f s = some s' → P s') (μ : σ → Nat)
    (lowers : ∀ s s', P s → f s = some s' → μ s' < μ s) (init : P s)
    (bound : μ s ≤ n) : f (exec f n s) = none := by
  induction n generalizing s with
  | zero =>
    cases h : f s with
    | none => exact h
    | some s' =>
      have := lowers s s' init h
      omega
  | succ n ih =>
    cases h : f s with
    | none => rw [exec_of_none h]; exact h
    | some s' =>
      have := lowers s s' init h
      rw [exec_succ_of_some h]
      exact ih (keeps s s' init h) (by omega)

/-- What lies on a cycle never comes to an end. -/
theorem step_of_cycle {u : σ} (cycle : Reaches₁ f t t) (h : Reaches f t u) : f u ≠ none := by
  have onCycle : Reaches₁ f u u := by
    refine reaches_invariant (P := fun u => Reaches₁ f u u) ?_ h cycle
    intro s s' hs hstep
    exact TransGen.tail' (reaches₁_fwd hs hstep) hstep
  obtain ⟨v, hv, _⟩ := TransGen.head'_iff.mp onCycle
  rw [Option.mem_def.mp hv]
  exact Option.some_ne_none v

/-- Two equal states, some rounds apart and not at the end, make a cycle. -/
theorem cycle_of_exec_eq {m : Nat} (hlt : m < n) (live : ∀ k, f (exec f k s) ≠ none)
    (heq : exec f m s = exec f n s) : Reaches₁ f (exec f m s) (exec f m s) := by
  obtain ⟨d, rfl⟩ : ∃ d, n = m + 1 + d := ⟨n - (m + 1), by omega⟩
  obtain ⟨s', hs'⟩ := Option.ne_none_iff_exists'.mp (live m)
  have hback : exec f d s' = exec f m s := by
    rw [heq, exec_add, exec_succ, hs', Option.getD_some]
  exact TransGen.head' hs' (hback ▸ reaches_exec f d s')

/-- A loop that can get to finitely many states does not end exactly when it can get onto a cycle. -/
theorem not_dom_iff_cycle (s : σ) (hfinite : {t | Reaches f s t}.Finite) :
    ¬ (eval f s).Dom ↔ ∃ t, Reaches f s t ∧ Reaches₁ f t t := by
  constructor
  · intro hdom
    have live : ∀ k, f (exec f k s) ≠ none := fun k h =>
      hdom (Part.dom_iff_mem.mpr ⟨_, exec_mem_eval h⟩)
    -- infinitely many rounds over finitely many states: two of them coincide
    have := hfinite.to_subtype
    obtain ⟨m, n, hne, hsame⟩ := Finite.exists_ne_map_eq_of_infinite fun k =>
      (⟨exec f k s, reaches_exec f k s⟩ : {t | Reaches f s t})
    have heq : exec f m s = exec f n s := congrArg Subtype.val hsame
    rcases Nat.lt_or_gt_of_ne hne with hlt | hlt
    · exact ⟨_, reaches_exec f m s, cycle_of_exec_eq hlt live heq⟩
    · exact ⟨_, reaches_exec f n s, cycle_of_exec_eq hlt live heq.symm⟩
  · rintro ⟨t, hst, hcycle⟩ hdom
    obtain ⟨u, hu⟩ := Part.dom_iff_mem.mp hdom
    rw [reaches_eval hst] at hu
    obtain ⟨htu, hnone⟩ := mem_eval.mp hu
    exact step_of_cycle hcycle htu hnone

/-! ## Two loops -/

/-- Only the results that are there matter to what follows. -/
theorem bind_congr_mem {β : Type*} {p : Part α} {g g' : α → Part β} (h : ∀ a ∈ p, g a = g' a) :
    p.bind g = p.bind g' := by
  refine Part.ext fun b => ?_
  rw [Part.mem_bind_iff, Part.mem_bind_iff]
  exact exists_congr fun a => and_congr_right fun ha => by rw [h a ha]

theorem exec_map (g : σ → τ) (comm : ∀ s, (f s).map g = f' (g s))
    (n : Nat) (s : σ) : exec f' n (g s) = g (exec f n s) := by
  induction n generalizing s with
  | zero => rfl
  | succ n ih =>
    cases h : f s with
    | none =>
      have hnone : f' (g s) = none := by rw [← comm, h, Option.map_none]
      rw [exec_of_none h, exec_of_none hnone]
    | some s' =>
      have hsome : f' (g s) = some (g s') := by rw [← comm, h, Option.map_some]
      rw [exec_succ_of_some h, exec_succ_of_some hsome, ih]

/-- A function that commutes with the rounds of two loops carries the result of one to the other. -/
theorem eval_map (g : σ → τ) (comm : ∀ s, (f s).map g = f' (g s))
    (s : σ) : (eval f s).map g = eval f' (g s) := by
  refine Part.ext fun t => ?_
  rw [Part.mem_map_iff]
  constructor
  · rintro ⟨e, he, rfl⟩
    obtain ⟨hreach, hnone⟩ := mem_eval.mp he
    obtain ⟨n, rfl⟩ := exists_exec_of_reaches hreach
    rw [← exec_map g comm]
    apply exec_mem_eval
    rw [exec_map g comm, ← comm, hnone, Option.map_none]
  · intro ht
    obtain ⟨hreach, hnone⟩ := mem_eval.mp ht
    obtain ⟨n, rfl⟩ := exists_exec_of_reaches hreach
    rw [exec_map g comm] at hnone ⊢
    rw [← comm, Option.map_eq_none_iff] at hnone
    exact ⟨_, exec_mem_eval hnone, rfl⟩

/-- If every round can also be taken on extended states, the loop on an extended state runs as on
the plain one, and goes on from the extension of its result. -/
theorem eval_extend (g : σ → σ) (ext : ∀ s s', f s = some s' → f (g s) = some (g s')) (s : σ) :
    eval f (g s) = (eval f s).bind fun e => eval f (g e) := by
  have lift : ∀ {s e : σ}, Reaches f s e → Reaches f (g s) (g e) := by
    intro s e h
    induction h with
    | refl => exact .refl
    | tail _ hstep ih => exact ih.tail (ext _ _ hstep)
  refine Part.ext fun t => ?_
  rw [Part.mem_bind_iff]
  constructor
  · intro ht
    obtain ⟨hreach, hnone⟩ := mem_eval.mp ht
    obtain ⟨n, hn⟩ := exists_exec_of_reaches hreach
    clear hreach
    -- on the rounds of the extended run, followed on the plain one as long as it lasts
    induction n generalizing s with
    | zero =>
      cases h : f s with
      | none => exact ⟨s, mem_eval.mpr ⟨.refl, h⟩, ht⟩
      | some s' =>
        have hlive := ext s s' h
        rw [show g s = t from hn, hnone] at hlive
        cases hlive
    | succ n ih =>
      cases h : f s with
      | none => exact ⟨s, mem_eval.mpr ⟨.refl, h⟩, ht⟩
      | some s' =>
        rw [exec_succ_of_some (ext s s' h)] at hn
        rw [reaches_eval (.single (ext s s' h))] at ht
        obtain ⟨e, he, hte⟩ := ih s' ht hn
        rw [← reaches_eval (.single h)] at he
        exact ⟨e, he, hte⟩
  · rintro ⟨e, he, hte⟩
    rw [reaches_eval (lift (mem_eval.mp he).1)]
    exact hte

/-- The rounds of a longer list: its first, and those behind. -/
theorem forall_round_cons_iff {Q : List α → α → Prop} {a : α} {as : List α} :
    (∀ bs b, bs ++ [b] <+: a :: as → Q bs b) ↔ Q [] a ∧ ∀ bs b, bs ++ [b] <+: as → Q (a :: bs) b := by
  refine ⟨fun h => ⟨h [] a (cons_prefix_cons.mpr ⟨rfl, List.nil_prefix⟩),
    fun bs b hbs => h (a :: bs) b (cons_prefix_cons.mpr ⟨rfl, hbs⟩)⟩, fun ⟨hfirst, hrest⟩ bs b hbs => ?_⟩
  cases bs with
  | nil =>
    obtain ⟨rfl, _⟩ := cons_prefix_cons.mp hbs
    exact hfirst
  | cons c cs =>
    obtain ⟨rfl, hcs⟩ := cons_prefix_cons.mp hbs
    exact hrest cs b hcs

theorem not_round_nil {bs : List α} {b : α} : ¬ bs ++ [b] <+: [] := fun h =>
  append_ne_nil_of_right_ne_nil _ (cons_ne_nil b []) (prefix_nil.mp h)

/-- After every round the property holds, exactly if every round is one that keeps the invariant. -/
theorem forall_prefix_iff {step : σ → α → σ} {inv : σ → Prop} {ok : σ → α → Prop}
    (holds : ∀ s, inv s → P s) (keeps : ∀ s a, inv s → ok s a → inv (step s a))
    (breaks : ∀ s a, inv s → ¬ ok s a → ¬ P (step s a)) (h : inv s) (as : List α) :
    (∀ bs, bs <+: as → P (bs.foldl step s)) ↔ ∀ bs a, bs ++ [a] <+: as → ok (bs.foldl step s) a := by
  induction as generalizing s with
  | nil =>
    refine iff_of_true (fun bs hbs => ?_) fun bs a hbs => (not_round_nil hbs).elim
    rw [prefix_nil.mp hbs]
    exact holds s h
  | cons a as ih =>
    rw [forall_round_cons_iff]
    refine ⟨fun hall => ?_, fun ⟨hok, hrest⟩ bs hbs => ?_⟩
    · have hfirst : [a] <+: a :: as := cons_prefix_cons.mpr ⟨rfl, List.nil_prefix⟩
      have hok : ok s a := Classical.byContradiction fun hnot => breaks s a h hnot (hall [a] hfirst)
      exact ⟨hok, (ih (keeps s a h hok)).mp fun bs hbs => hall (a :: bs) (cons_prefix_cons.mpr ⟨rfl, hbs⟩)⟩
    · cases bs with
      | nil => exact holds s h
      | cons c cs =>
        obtain ⟨rfl, hcs⟩ := cons_prefix_cons.mp hbs
        exact (ih (keeps s c h hok)).mpr hrest cs hcs

end Vock.Library
