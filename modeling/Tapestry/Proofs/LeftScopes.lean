import Tapestry.Proofs.ScopeConfinement
import Tapestry.Proofs.ScopeForests

/-!
# Scopes that have been left

An expansion works on what is seen from one scope of a forest. Here it is followed in the forest
itself, where scopes stay when they have been left: a body is expanded in a new scope inside the
present one, a symbol is installed as seen from the present scope, and a unit is expanded in the
scope that it is asked for in.

Each of these makes a new scope, or changes the present scope or one around it. So all other scopes,
such as those that have been left, are as they were when an expression has been expanded. With what
is known about the scopes around a call, this says for every scope of the forest what a call of a
template leaves behind in it.
-/

namespace Tapestry

/-- There is one scope more than there are around the innermost. -/
theorem Env.length_scopes (env : Env) : env.scopes.length = env.depth + 1 := by
  induction env with
  | root scope => rfl
  | nested scope outer ih => rw [scopes, List.length_cons, ih, depth]

namespace Forest

variable {forest middle after : Forest} {number n : Nat} {env : Env} {scope : Scope}

/-! ## New scopes -/

/-- Make a scope inside another with blocks and symbols in it, which are installed in their order. -/
def nest (forest : Forest) (number : Nat) (scope : Scope) : Forest :=
  (forest.child number).modify forest.size fun entry =>
    scope.symbols.foldl Entry.install { entry with scope := { entry.scope with blocks := scope.blocks } }

/-- Symbols that are installed one after the other stand behind the others of their scope. -/
theorem Entry.foldl_install (entry : Entry) (symbols : List Symbol) :
    (symbols.foldl install entry).around = entry.around ∧
      (symbols.foldl install entry).root = entry.root ∧
        (symbols.foldl install entry).scope =
          { entry.scope with symbols := entry.scope.symbols ++ symbols } := by
  induction symbols generalizing entry with
  | nil => exact ⟨rfl, rfl, by rw [List.append_nil]; rfl⟩
  | cons symbol rest ih =>
    obtain ⟨haround, hroot, hscope⟩ := ih (entry.install symbol)
    refine ⟨haround, hroot, hscope.trans ?_⟩
    simp only [install, List.append_assoc, List.singleton_append]

/-- Table and list agree when symbols of different names were installed. -/
theorem Entry.Coherent.foldl_install {entry : Entry} (h : entry.Coherent) {symbols : List Symbol}
    (hnames : ((entry.scope.symbols ++ symbols).map Symbol.name).Nodup) :
    (symbols.foldl Entry.install entry).Coherent := by
  induction symbols generalizing entry with
  | nil => exact h
  | cons symbol rest ih =>
    refine ih (h.install ?_) ?_
    · rintro ⟨held, hheld, hname⟩
      rw [List.map_append, List.nodup_append] at hnames
      exact hnames.2.2 _ (List.mem_map_of_mem hheld) _ List.mem_cons_self hname
    · rwa [show (entry.install symbol).scope.symbols = entry.scope.symbols ++ [symbol] from rfl,
        List.append_assoc, List.singleton_append]

/-- A scope that was made is one of the forest. -/
theorem size_lt_child : forest.size < (forest.child number).size := by
  rw [size_child]
  exact Nat.lt_succ_self _

/-- The new scope lies inside the present one and holds what it was made with. -/
theorem entry_nest_size (scope : Scope) :
    ((forest.nest number scope).entry forest.size).around = forest.chain number ∧
      (forest.nest number scope).root forest.size = forest.root number ∧
        (forest.nest number scope).scope forest.size = scope := by
  rw [root, Forest.scope, nest, entry_modify _ size_lt_child, if_pos rfl, entry_child, if_pos rfl]
  obtain ⟨haround, hroot, hscope⟩ := Entry.foldl_install
    ⟨forest.chain number, forest.root number, [], ⟨[], scope.blocks⟩⟩ scope.symbols
  exact ⟨haround, hroot, hscope⟩

/-- The other scopes are as they were. -/
theorem entry_nest_of_ne (scope : Scope) (hn : n ≠ forest.size) :
    (forest.nest number scope).entry n = forest.entry n := by
  rw [nest, entry_modify _ size_lt_child, if_neg hn, entry_child, if_neg hn]

/-- There is one scope more. -/
@[simp]
theorem size_nest (scope : Scope) : (forest.nest number scope).size = forest.size + 1 := by
  rw [nest, size_modify, size_child]

/-- The new scope is one of the forest. -/
theorem size_lt_nest : forest.size < (forest.nest number scope).size := by
  rw [size_nest]
  exact Nat.lt_succ_self _

/-- Scopes stay nested when one is made. -/
theorem Nested.nest (h : forest.Nested) (hnumber : number < forest.size) (scope : Scope) :
    (forest.nest number scope).Nested := by
  obtain ⟨haround, hroot, -⟩ := @entry_nest_size forest number scope
  rw [root] at hroot
  refine (h.child hnumber).of_same ?_ (fun n => ?_) fun n => ?_
  · rw [size_nest, size_child]
  · rw [entry_child]
    split
    case isTrue hn => rw [hn, haround]
    case isFalse hn => rw [entry_nest_of_ne scope hn]
  · rw [root, root, entry_child]
    split
    case isTrue hn => rw [hn, hroot]
    case isFalse hn => rw [entry_nest_of_ne scope hn]

/-! ## What is seen from a scope -/

/-- An environment is what is seen from a scope of a forest in order. -/
structure Shows (forest : Forest) (number : Nat) (env : Env) : Prop where
  nested : forest.Nested
  coherent : ∀ n, (forest.entry n).Coherent
  number_lt : number < forest.size
  env_eq : forest.env number = env

/-- Scopes that are not around a scope are as they were, and all scopes have kept their places. -/
structure Spares (forest : Forest) (number : Nat) (after : Forest) : Prop where
  size_le : forest.size ≤ after.size
  chain_eq : ∀ n < forest.size, after.chain n = forest.chain n
  entry_eq : ∀ n < forest.size, n ∉ forest.chain number → after.entry n = forest.entry n

/-- A forest that does not change spares all its scopes. -/
theorem Spares.refl : Spares forest number forest := ⟨Nat.le_refl _, fun _ _ => rfl, fun _ _ _ => rfl⟩

/-- Scopes are spared by one change after the other. -/
theorem Spares.trans (hnumber : number < forest.size) (first : Spares forest number middle)
    (second : Spares middle number after) : Spares forest number after where
  size_le := Nat.le_trans first.size_le second.size_le
  chain_eq n hn := (second.chain_eq n (Nat.lt_of_lt_of_le hn first.size_le)).trans (first.chain_eq n hn)
  entry_eq n hn hout := by
    rw [second.entry_eq n (Nat.lt_of_lt_of_le hn first.size_le), first.entry_eq n hn hout]
    rwa [first.chain_eq number hnumber]

/-- What spares scopes in a new scope spares them around it. -/
theorem Spares.of_nest (h : Spares (forest.nest number scope) forest.size after) :
    Spares forest number after := by
  have hlt {n : Nat} (hn : n < forest.size) : n < (forest.nest number scope).size :=
    Nat.lt_trans hn size_lt_nest
  have hkept {n : Nat} (hn : n < forest.size) : (forest.nest number scope).entry n = forest.entry n :=
    entry_nest_of_ne scope (Nat.ne_of_lt hn)
  refine ⟨Nat.le_of_lt (Nat.lt_of_lt_of_le size_lt_nest h.size_le), fun n hn => ?_,
    fun n hn hout => ?_⟩
  · rw [h.chain_eq n (hlt hn), chain, hkept hn, chain]
  · rw [h.entry_eq n (hlt hn), hkept hn]
    rw [chain, (entry_nest_size scope).1]
    exact fun hmem => (List.mem_cons.mp hmem).elim (Nat.ne_of_lt hn) hout

/-- The root is around every scope, the last of all. -/
theorem Nested.getLast?_chain (h : forest.Nested) (hnumber : number < forest.size) :
    (forest.chain number).getLast? = some 0 := by
  induction number using Nat.strongRecOn with
  | ind number ih =>
    rcases h.parent_cases hnumber with ⟨_, _, hchain⟩ | ⟨p, hp, _, hchain⟩
    · rw [hchain]
      rfl
    · have hrest := ih p hp (Nat.lt_trans hp hnumber)
      rw [hchain, List.getLast?_cons, hrest]
      rfl

/-- The scopes around a scope are scopes of the forest. -/
theorem Nested.lt_size_of_mem_chain (h : forest.Nested) (hnumber : number < forest.size)
    (hn : n ∈ forest.chain number) : n < forest.size := by
  induction number using Nat.strongRecOn with
  | ind number ih =>
    rcases h.parent_cases hnumber with ⟨rfl, _, hchain⟩ | ⟨p, hp, _, hchain⟩
    · rw [hchain, List.mem_singleton] at hn
      exact hn ▸ h.size_pos
    · rw [hchain, List.mem_cons] at hn
      rcases hn with rfl | hn
      · exact hnumber
      · exact ih p hp (Nat.lt_trans hp hnumber) hn

/-- What is seen from a scope depends on it and the scopes around it only. -/
theorem env_of_entry_eq (h : ∀ n ∈ forest.chain number, after.entry n = forest.entry n) :
    after.env number = forest.env number := by
  have haround : after.entry number = forest.entry number := h number List.mem_cons_self
  rw [env, env, Forest.scope, haround]
  refine congrArg (envOf _) (List.map_congr_left fun n hn => ?_)
  rw [Forest.scope, h n (List.mem_cons_of_mem _ hn), Forest.scope]

/-- A symbol is installed in the scope it is seen from or in one around it. -/
theorem Nested.target_mem_chain (h : forest.Nested) (hnumber : number < forest.size)
    (lifetime : Lifetime) : forest.target number lifetime ∈ forest.chain number := by
  cases lifetime with
  | here | unknown _ => exact List.mem_cons_self
  | everywhere =>
    rw [target, h.root_eq]
    exact List.mem_of_getLast? (h.getLast?_chain hnumber)
  | outside =>
    rw [target]
    cases hparent : forest.parent? number with
    | none => exact List.mem_cons_self
    | some p => exact List.mem_cons_of_mem _ (List.mem_of_head? hparent)

/-- An installed symbol is seen, and the scopes that are not around are spared. -/
theorem Shows.push {symbol : Symbol} {lifetime : Lifetime} {next : Env} (h : forest.Shows number env)
    (hpush : env.push symbol lifetime = .ok next) :
    ∃ grown, forest.push number symbol lifetime = (grown, none) ∧ grown.Shows number next ∧
      Spares forest number grown := by
  have htarget := h.nested.target_lt_size h.number_lt lifetime
  have happends := appends_modify htarget symbol
  have henv := h.nested.push_env h.number_lt lifetime happends
  rw [h.env_eq, hpush, Scope.push, Forest.scope, (h.coherent _).find?_eq_lookup, ← table] at henv
  rcases forest.push_cases number symbol lifetime with ⟨htaken, -⟩ | ⟨hfree, hgrown⟩
  · rw [if_pos htaken] at henv
    cases henv
  · rw [if_neg hfree] at henv
    refine ⟨_, hgrown, ⟨h.nested.of_appends happends, fun n => ?_, ?_, (Except.ok.inj henv).symm⟩,
      ⟨Nat.le_of_eq happends.size_eq.symm, fun n _ => ?_, fun n _ hout => happends.entry_eq n ?_⟩⟩
    · rw [entry_modify _ htarget]
      split
      case isTrue hn =>
        subst hn
        exact (h.coherent _).install (mt (h.coherent _).lookup_isSome_iff.mpr hfree)
      case isFalse => exact h.coherent n
    · rw [happends.size_eq]
      exact h.number_lt
    · rw [chain, happends.around_eq, chain]
    · rintro rfl
      exact hout (h.nested.target_mem_chain h.number_lt lifetime)

/-- A new scope is seen inside the present one. -/
theorem Shows.nest (h : forest.Shows number env) (hnames : (scope.symbols.map Symbol.name).Nodup) :
    (forest.nest number scope).Shows forest.size (.nested scope env) := by
  obtain ⟨haround, -, hscope⟩ := @entry_nest_size forest number scope
  have hnested := h.nested.nest h.number_lt scope
  refine ⟨hnested, fun n => ?_, size_lt_nest, ?_⟩
  · by_cases hn : n = forest.size
    · subst hn
      rw [Forest.nest, entry_modify _ size_lt_child, if_pos rfl, entry_child, if_pos rfl]
      have hempty : Entry.Coherent ⟨forest.chain number, forest.root number, [], ⟨[], scope.blocks⟩⟩ :=
        ⟨List.nodup_nil, by simp⟩
      exact hempty.foldl_install hnames
    · rw [entry_nest_of_ne scope hn]
      exact h.coherent n
  · have hparent : (forest.nest number scope).parent? forest.size = some number := by
      rw [parent?, haround]
      rfl
    have hkept : (forest.nest number scope).env number = forest.env number :=
      env_of_entry_eq fun n hn => entry_nest_of_ne scope
        (Nat.ne_of_lt (h.nested.lt_size_of_mem_chain h.number_lt hn))
    rw [hnested.env_of_inside size_lt_nest hparent, hscope, hkept, h.env_eq]

/-- A scope around the present one is seen at some distance, the present one at none and the root at the
depth of the environment. -/
theorem Shows.exists_distance (h : forest.Shows number env) (hn : n ∈ forest.chain number) :
    ∃ i : Nat, (forest.chain number)[i]? = some n ∧ env.scopes[i]? = some (forest.scope n) ∧
      (i = 0 → n = number) ∧ (i = env.depth → n = 0) := by
  obtain ⟨i, hi⟩ := List.mem_iff_getElem?.mp hn
  have hscopes : env.scopes = (forest.chain number).map forest.scope := by rw [← h.env_eq, scopes_env]
  refine ⟨i, hi, ?_, ?_, ?_⟩
  · rw [hscopes, List.getElem?_map, hi]
    rfl
  · rintro rfl
    exact (Option.some.inj hi).symm
  · rintro rfl
    have hlength : (forest.chain number).length = env.depth + 1 := by
      rw [← env.length_scopes, hscopes, List.length_map]
    have hlast := h.nested.getLast?_chain h.number_lt
    rw [List.getLast?_eq_getElem?, hlength, Nat.add_sub_cancel, hi] at hlast
    exact Option.some.inj hlast

/-- When a scope has been left, the one around it is seen. -/
theorem Shows.leave {inner : Env} (h : forest.Shows number env)
    (hspares : Spares (forest.nest number scope) forest.size after)
    (hafter : after.Shows forest.size inner) : after.Shows number inner.outer := by
  have hparent : after.parent? forest.size = some number := by
    have hchain := hspares.chain_eq forest.size size_lt_nest
    rw [chain, chain, (entry_nest_size scope).1] at hchain
    rw [parent?, (List.cons.inj hchain).2]
    rfl
  refine ⟨hafter.nested, hafter.coherent, Nat.lt_trans h.number_lt hafter.number_lt, ?_⟩
  rw [← hafter.env_eq, hafter.nested.env_of_inside hafter.number_lt hparent]
  rfl

end Forest

namespace Expansion

variable {file : Text} {node : Node} {setup : Setup} {state after : State} {trail : List Visit}
  {forest : Forest} {number : Nat}

/-! ## Expansion in a forest -/

/-- What the expressions at a point make of a forest, where the expansion stands in one of its scopes,
and the state they lead to. -/
inductive Tends (setup : Setup) : Frame → Forest → Nat → State → Forest → Prop where
  | nil {levels trail file state forest number} :
    Tends setup ⟨levels, trail, file, [], state⟩ forest number state forest
  /-- Nothing is installed. -/
  | still {levels trail file node rest state record forest number after grown}
      (done : stepAt setup trail file node state = .done record state.env)
      (behind : Tends setup ⟨levels + 1, trail, file, rest, state.record record⟩ forest number after grown) :
    Tends setup ⟨levels + 1, trail, file, node :: rest, state⟩ forest number after grown
  /-- A symbol is installed as seen from the present scope. -/
  | install {levels trail file node rest state record env symbol lifetime forest number middle after grown}
      (done : stepAt setup trail file node state = .done record env)
      (pushed : state.env.push symbol lifetime = .ok env)
      (installed : forest.push number symbol lifetime = (middle, none))
      (behind : Tends setup ⟨levels + 1, trail, file, rest, { state.record record with env }⟩ middle
        number after grown) :
    Tends setup ⟨levels + 1, trail, file, node :: rest, state⟩ forest number after grown
  /-- A body is expanded in a new scope, which is left behind it. -/
  | enter {levels trail file node rest state record scope body origin forest number last middle after grown}
      (entered : stepAt setup trail file node state = .enter record scope body origin)
      (inside : Tends setup ⟨levels, record :: trail, origin, body, (state.record record).enter scope⟩
        (forest.nest number scope) forest.size last middle)
      (behind : Tends setup ⟨levels + 1, trail, file, rest, last.leave⟩ middle number after grown) :
    Tends setup ⟨levels + 1, trail, file, node :: rest, state⟩ forest number after grown
  /-- A unit is expanded in the present scope. -/
  | unit {levels trail file node rest state record name body forest number last middle after grown}
      (begun : stepAt setup trail file node state = .unit record name body)
      (inside : Tends setup ⟨levels, record :: trail, name, body, (state.record record).beginUnit name⟩
        forest number last middle)
      (behind : Tends setup ⟨levels + 1, trail, file, rest, last.endUnit⟩ middle number after grown) :
    Tends setup ⟨levels + 1, trail, file, node :: rest, state⟩ forest number after grown

/-- A scope that is entered has no two symbols of one name. -/
theorem nodup_of_enter {record : Visit} {scope : Scope} {body : List Node} {origin : Text}
    (h : stepAt setup trail file node state = .enter record scope body origin) :
    (scope.symbols.map Symbol.name).Nodup := by
  cases acts_of_stepAt h with
  | splice => exact List.nodup_nil
  | template _ _ pushed => exact Scope.nodup_of_pushAll pushed List.nodup_nil
  | blockTemplate _ _ pushed => exact Scope.nodup_of_pushAll pushed List.nodup_nil

/-- An expression that is done has left its environment as it was, or has installed a symbol. -/
theorem env_of_done {record : Visit} {env : Env}
    (h : stepAt setup trail file node state = .done record env) :
    env = state.env ∨ ∃ symbol lifetime, state.env.push symbol lifetime = .ok env := by
  cases acts_of_stepAt h with
  | idle | emit | included => exact .inl rfl
  | register _ _ _ pushed => exact .inr ⟨_, _, pushed⟩
  | define _ _ _ _ _ pushed => exact .inr ⟨_, _, pushed⟩

/-- Expressions that follow a body are expanded in the state that the body leads to. -/
theorem exists_of_andThen_mapReady {f : State → State} {progress : Progress}
    {run : State → Progress} (h : (progress.mapReady f).andThen run = .ready after) :
    ∃ last, progress = .ready last ∧ run (f last) = .ready after := by
  cases progress with
  | ready last => exact ⟨last, rfl, h⟩
  | stopped last error => cases h

/-- In a forest, expansion leads to what is seen of its scopes, and spares the scopes that are not
around the one it starts in. -/
theorem Tends.shows {frame : Frame} {grown : Forest}
    (h : Tends setup frame forest number after grown) (hshows : forest.Shows number frame.state.env) :
    grown.Shows number after.env ∧ forest.Spares number grown := by
  induction h with
  | nil => exact ⟨hshows, .refl⟩
  | still _ _ ih => exact ih hshows
  | install _ pushed installed _ ih =>
    obtain ⟨middle, hinstalled, hmiddle, hspares⟩ := hshows.push pushed
    obtain rfl := congrArg Prod.fst (hinstalled.symm.trans installed)
    obtain ⟨hgrown, hrest⟩ := ih hmiddle
    exact ⟨hgrown, hspares.trans hshows.number_lt hrest⟩
  | enter entered _ _ ihInside ihBehind =>
    obtain ⟨hinside, hspares⟩ := ihInside (hshows.nest (nodup_of_enter entered))
    obtain ⟨hgrown, hrest⟩ := ihBehind (hshows.leave hspares hinside)
    exact ⟨hgrown, hspares.of_nest.trans hshows.number_lt hrest⟩
  | unit _ _ _ ihInside ihBehind =>
    obtain ⟨hinside, hspares⟩ := ihInside hshows
    obtain ⟨hgrown, hrest⟩ := ihBehind hinside
    exact ⟨hgrown, hspares.trans hshows.number_lt hrest⟩

/-- Every expansion that comes to its end can be followed in every forest that shows its environment. -/
theorem exists_tends {levels : Nat} {nodes : List Node}
    (h : visitAll (visit setup levels trail file) nodes state = .ready after)
    (hshows : forest.Shows number state.env) :
    ∃ grown, Tends setup ⟨levels, trail, file, nodes, state⟩ forest number after grown := by
  induction levels generalizing trail file nodes state after forest number with
  | zero =>
    cases nodes with
    | nil =>
      cases h
      exact ⟨forest, .nil⟩
    | cons node rest => cases h
  | succ levels ih =>
    induction nodes generalizing state forest with
    | nil =>
      cases h
      exact ⟨forest, .nil⟩
    | cons node rest ihRest =>
      rw [visitAll, visit_succ] at h
      cases hstep : stepAt setup trail file node state with
      | fail record fault => simp [hstep, Progress.andThen] at h
      | done record env =>
        simp only [hstep, Progress.andThen] at h
        rcases env_of_done hstep with rfl | ⟨symbol, lifetime, hpush⟩
        · obtain ⟨grown, htends⟩ := ihRest h hshows
          exact ⟨grown, .still hstep htends⟩
        · obtain ⟨middle, hinstalled, hmiddle, -⟩ := hshows.push hpush
          obtain ⟨grown, htends⟩ := ihRest h hmiddle
          exact ⟨grown, .install hstep hpush hinstalled htends⟩
      | enter record scope body origin =>
        simp only [hstep] at h
        obtain ⟨last, hlast, hrest⟩ := exists_of_andThen_mapReady h
        have hnest := hshows.nest (nodup_of_enter hstep)
        obtain ⟨middle, hinside⟩ := ih hlast hnest
        obtain ⟨hmiddle, hspares⟩ := hinside.shows hnest
        obtain ⟨grown, hbehind⟩ := ihRest hrest (hshows.leave hspares hmiddle)
        exact ⟨grown, .enter hstep hinside hbehind⟩
      | unit record name body =>
        simp only [hstep] at h
        obtain ⟨last, hlast, hrest⟩ := exists_of_andThen_mapReady h
        obtain ⟨middle, hinside⟩ := ih hlast hshows
        obtain ⟨grown, hbehind⟩ := ihRest hrest (hinside.shows hshows).1
        exact ⟨grown, .unit hstep hinside hbehind⟩

/-- An expression that was visited is a list of one. -/
theorem visitAll_singleton {levels : Nat}
    (h : visit setup levels trail file node state = .ready after) :
    visitAll (visit setup levels trail file) [node] state = .ready after := by
  rw [visitAll, h]
  rfl

/-- The forest with nothing but built-in functions shows the environment an expansion starts in. -/
theorem shows_initial (name : Text) (body : List Node) :
    (Forest.empty.pushAll 0 .everywhere Scope.initial.symbols).1.Shows 0 (State.initial name body).env := by
  have hgrown : Forest.Grown (Forest.empty.pushAll 0 .everywhere Scope.initial.symbols).1 :=
    Forest.Grown.root.pushAll Nat.one_pos _ _
  exact ⟨hgrown.nested, hgrown.coherent, hgrown.nested.size_pos, rfl⟩

/-- Every point of an expansion is seen from a scope of a forest, in which the scopes are that were left
before. -/
theorem exists_shows_of_reached {name : Text} {body : List Node} {frame : Frame}
    (h : Reached setup name body frame) :
    ∃ forest number, Forest.Shows forest number frame.state.env := by
  induction h with
  | refl => exact ⟨_, 0, shows_initial name body⟩
  | tail _ leads ih =>
    obtain ⟨forest, number, hshows⟩ := ih
    cases leads with
    | next visited =>
      obtain ⟨grown, htends⟩ := exists_tends (visitAll_singleton visited) hshows
      exact ⟨grown, number, (htends.shows hshows).1⟩
    | enter entered => exact ⟨_, _, hshows.nest (nodup_of_enter entered)⟩
    | unit begun => exact ⟨forest, number, hshows⟩

/-- In every forest that shows its environment, a call of a template that comes to its end can be
followed, and whatever comes of the forest: every scope that was there has the symbols it had and
others behind them, of which none is a variable, and a function only if it is for everywhere and in
the root, or for outside and in the scope that the call runs in. Scopes that are not around the call,
as are all that have been left, are not changed at all. -/
theorem template_calls_spare_left_scopes (setup : Setup) (levels : Nat) (trail : List Visit)
    (file : Text) (node : Node) (state after : State) (function : Function)
    (hcall : (stepAt setup trail file node state).record.function = some function)
    (htemplate : function.isBuiltin = false)
    (h : visit setup levels trail file node state = .ready after)
    (hshows : forest.Shows number state.env) :
    (∃ grown, Tends setup ⟨levels, trail, file, [node], state⟩ forest number after grown) ∧
      ∀ grown, Tends setup ⟨levels, trail, file, [node], state⟩ forest number after grown →
        (∀ n < forest.size, n ∉ forest.chain number → grown.entry n = forest.entry n) ∧
        ∀ n < forest.size, ∃ added,
          grown.scope n = { forest.scope n with symbols := (forest.scope n).symbols ++ added } ∧
            ∀ symbol ∈ added, ∃ f, symbol = .func f ∧
              (f.lifetime = .everywhere ∧ n = 0 ∨ f.lifetime = .outside ∧ n = number) := by
  refine ⟨exists_tends (visitAll_singleton h) hshows, fun grown htends => ?_⟩
  obtain ⟨hgrown, hspares⟩ := htends.shows hshows
  obtain ⟨less, record, scope, body, origin, last, hbody, rfl⟩ :=
    exists_enter_of_ready hcall htemplate h
  have hwidens := widens_of_body hbody
  refine ⟨hspares.entry_eq, fun n hn => ?_⟩
  by_cases haround : n ∈ forest.chain number
  · obtain ⟨i, hi, hscope, hpresent, hroot⟩ := hshows.exists_distance haround
    obtain ⟨added, hafter, hadded⟩ := hwidens.scope_at i _ hscope
    have hchain := hspares.chain_eq number hshows.number_lt
    rw [← hgrown.env_eq, Forest.scopes_env, hchain, List.getElem?_map, hi] at hafter
    refine ⟨added, Option.some.inj hafter, fun symbol hsymbol => ?_⟩
    obtain ⟨f, rfl, ⟨hlifetime, hdepth⟩ | ⟨hlifetime, hhere⟩⟩ := hadded symbol hsymbol
    · exact ⟨f, rfl, .inl ⟨hlifetime, hroot hdepth⟩⟩
    · exact ⟨f, rfl, .inr ⟨hlifetime, hpresent hhere⟩⟩
  · refine ⟨[], ?_, fun symbol hsymbol => absurd hsymbol List.not_mem_nil⟩
    rw [Forest.scope, hspares.entry_eq n hn haround, List.append_nil]
    rfl

end Expansion

end Tapestry
