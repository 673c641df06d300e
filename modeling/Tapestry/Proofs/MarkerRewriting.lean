import Mathlib.Data.List.Forall2
import Tapestry.Proofs.ScopeContents
import Tapestry.Splice

/-!
# Markers become splice points

Installing a block template rewrites its body: each marker becomes a splice point, and nothing else
changes. Where a node stands is told by its path, the places to take in the bodies on the way down
to it, and nodes come in the order of their paths. Markers inside nested block templates belong to
those and stay.

A marker with arguments or with a block cannot be rewritten, and the first of them in order is
blamed. Markers that are already splice points are not touched, so rewriting twice is rewriting
once, under whatever name.
-/

namespace Tapestry.Node

/-! ## Nodes and their paths -/

/-- The node that a path leads to from a node on. -/
def within? : Node → List Nat → Option Node
  | node, [] => some node
  | node, place :: path => node.body[place]?.bind fun child => child.within? path

/-- The node that a path leads to in a body. -/
def at? (body : List Node) : List Nat → Option Node
  | [] => none
  | place :: path => body[place]?.bind fun node => node.within? path

/-- Whether a node defines a block template, to which the markers inside belong. -/
def definesBlockTemplate : Node → Bool
  | block head _ => head.head.text == Text.ofString "macroblock"
  | call _ | splice _ _ => false

/-- A path stays outside nested block templates: no node on the way to its own defines one. -/
def Outside (body : List Node) (path : List Nat) : Prop :=
  ∀ front, front <+: path → front ≠ path →
    ∀ around, at? body front = some around → around.definesBlockTemplate = false

/-- The order of paths: a node comes before those inside it, and at the place where two paths part
the one with the lesser place comes first. -/
inductive Before : List Nat → List Nat → Prop where
  | around {place path} : Before [] (place :: path)
  | earlier {place place' path path'} (lt : place < place') : Before (place :: path) (place' :: path')
  | inside {place path path'} (before : Before path path') : Before (place :: path) (place :: path')

/-- Whether a node is a marker that cannot be rewritten: it has arguments, or it owns a block. -/
def misusesMarker : Node → Bool
  | call head => head.head.text == marker && !head.args.isEmpty
  | block head _ => head.head.text == marker
  | splice _ _ => false

/-- What is said about a marker that cannot be rewritten. -/
inductive Blames (owner : Text) : Node → Fault → Prop where
  /-- A marker with arguments is blamed at the first of them. -/
  | arguments {head first rest} (named : head.head.text = marker) (args_eq : head.args = first :: rest) :
    Blames owner (call head)
      { kind := .codeInceptionArguments
        detail := "`code` in `" ++ owner ++ "` cannot take arguments"
        token := some first
        line := none
        causes := [] }
  /-- A marker with a block is blamed at its head. -/
  | block {head body} (named : head.head.text = marker) :
    Blames owner (block head body)
      { kind := .codeInceptionBlock
        detail := "`code` in `" ++ owner ++ "` cannot own a block"
        token := some head.head
        line := some head
        causes := [] }

/-- What becomes of a node, the nodes inside it apart. -/
inductive Becomes (owner : Text) (outside : Prop) : Node → Node → Prop where
  /-- A marker outside nested block templates is a splice point for the owner. -/
  | marker {head} (here : outside) (named : head.head.text = marker) (args_eq : head.args = []) :
    Becomes owner outside (call head) (splice head owner)
  /-- Every other call stays. -/
  | call {head} (other : ¬ (outside ∧ head.head.text = Node.marker)) :
    Becomes owner outside (call head) (call head)
  /-- A splice point stays. -/
  | splice {head other} : Becomes owner outside (splice head other) (splice head other)
  /-- A block stays a block, and is the same inside nested block templates and if it defines one. -/
  | block {head body inner}
      (nested : ¬ outside ∨ (block head body).definesBlockTemplate = true → inner = body) :
    Becomes owner outside (block head body) (block head inner)

mutual

/-- Put the statements of splice points back where a node had calls. -/
def withdraw : Node → Node → Node
  | call _, splice head _ => call head
  | block _ old, block head body => block head (withdrawAll old body)
  | _, node => node

/-- Put the statements of splice points back where a body had calls. -/
def withdrawAll : List Node → List Node → List Node
  | old :: rest, node :: nodes => old.withdraw node :: withdrawAll rest nodes
  | _, nodes => nodes

end

variable {owner : Text} {node other : Node} {body : List Node} {place : Nat} {path : List Nat}

/-! ## What rewriting keeps -/

/-- A relation between nodes and what they are rewritten to, kept through each kind of node. -/
structure KeptByMarking (owner : Text) (P : Node → Node → Prop) : Prop where
  marker : ∀ head : Statement, head.head.text = Node.marker → head.args = [] →
    P (call head) (splice head owner)
  call : ∀ head : Statement, head.head.text ≠ Node.marker → P (call head) (call head)
  splice : ∀ head other, P (splice head other) (splice head other)
  /-- A block template is not looked into. -/
  template : ∀ head body, head.head.text ≠ Node.marker →
    (block head body).definesBlockTemplate = true → P (block head body) (block head body)
  block : ∀ head body inner, head.head.text ≠ Node.marker →
    (block head body).definesBlockTemplate = false → List.Forall₂ P body inner →
      P (block head body) (block head inner)

mutual

/-- What is kept through each kind of node holds of a node and what it is rewritten to. -/
theorem KeptByMarking.of_mark {P : Node → Node → Prop} (kept : KeptByMarking owner P) :
    ∀ {node marked : Node}, node.mark owner = .ok marked → P node marked
  | .call head, marked, h => by
    rw [mark] at h
    split at h
    case isTrue hname =>
      split at h
      case h_1 hargs =>
        cases h
        exact kept.marker head hname hargs
      case h_2 => cases h
    case isFalse hname =>
      cases h
      exact kept.call head hname
  | .block head body, marked, h => by
    rw [mark] at h
    split at h
    case isTrue => cases h
    case isFalse hname =>
      split at h
      case isTrue htemplate =>
        cases h
        exact kept.template head body hname (by simp [definesBlockTemplate, htemplate])
      case isFalse htemplate =>
        obtain ⟨inner, hinner, rfl⟩ := exists_of_map_eq_ok h
        exact kept.block head body inner hname (by simp [definesBlockTemplate, htemplate])
          (kept.of_markAll hinner)
  | .splice head other, marked, h => by
    cases h
    exact kept.splice head other

/-- What is kept through each kind of node holds of the nodes of a body one by one. -/
theorem KeptByMarking.of_markAll {P : Node → Node → Prop} (kept : KeptByMarking owner P) :
    ∀ {body marked : List Node}, markAll owner body = .ok marked → List.Forall₂ P body marked
  | [], marked, h => by
    cases h
    exact .nil
  | node :: rest, marked, h => by
    obtain ⟨first, hfirst, h⟩ := exists_of_bind_eq_ok h
    obtain ⟨others, hothers, rfl⟩ := exists_of_map_eq_ok h
    exact .cons (kept.of_mark hfirst) (kept.of_markAll hothers)

end

mutual

/-- A node in which nothing has been rewritten stays. -/
theorem withdraw_self : ∀ node : Node, node.withdraw node = node
  | .call _ | .splice _ _ => rfl
  | .block head body => by rw [withdraw, withdrawAll_self body]

/-- A body in which nothing has been rewritten stays. -/
theorem withdrawAll_self : ∀ body : List Node, withdrawAll body body = body
  | [] => rfl
  | node :: rest => by rw [withdrawAll, withdraw_self node, withdrawAll_self rest]

end

/-- Bodies whose nodes correspond one by one can be put back in the same way. -/
theorem withdrawAll_of_forall₂ {result : List Node}
    (h : List.Forall₂ (fun node marked => node.withdraw marked = node) body result) :
    withdrawAll body result = body := by
  induction h with
  | nil => rfl
  | cons hnode _ ih => rw [withdrawAll, hnode, ih]

/-- Putting statements back undoes the rewriting. -/
theorem withdraw_kept (owner : Text) :
    KeptByMarking owner fun node marked => node.withdraw marked = node where
  marker head _ _ := rfl
  call head _ := rfl
  splice head other := rfl
  template head body _ _ := withdraw_self (.block head body)
  block head body inner _ _ h := by rw [withdraw, withdrawAll_of_forall₂ h]

/-- A body whose nodes are rewritten to themselves is rewritten to itself. -/
theorem markAll_of_forall₂ {result : List Node} (name : Text)
    (h : List.Forall₂ (fun _ marked => ∀ name, mark name marked = .ok marked) body result) :
    markAll name result = .ok result := by
  induction h with
  | nil => rfl
  | cons hnode _ ih => rw [markAll, hnode name, ih]; rfl

/-- What has been rewritten is rewritten to itself. -/
theorem mark_kept (owner : Text) :
    KeptByMarking owner fun _ marked => ∀ name, mark name marked = .ok marked where
  marker head _ _ _ := rfl
  call head hname _ := by rw [mark, if_neg hname]
  splice head other _ := rfl
  template head body hname htemplate name := by
    rw [mark, if_neg hname, if_pos (by simpa [definesBlockTemplate] using htemplate)]
  block head body inner hname htemplate h name := by
    rw [mark, if_neg hname, if_neg (by simpa [definesBlockTemplate] using htemplate),
      markAll_of_forall₂ name h]
    rfl

/-! ## Paths that stay outside nested block templates -/

/-- No node on the way that a path takes from a node on defines a block template. -/
def Clear (node : Node) (path : List Nat) : Prop :=
  ∀ front, front <+: path → front ≠ path →
    ∀ around, node.within? front = some around → around.definesBlockTemplate = false

/-- Nothing is on the way to the node itself. -/
theorem clear_nil (node : Node) : node.Clear [] :=
  fun _ hfront hne => absurd (List.prefix_nil.mp hfront) hne

/-- The way into a body begins at the node that owns it. -/
theorem clear_cons {child : Node} (h : node.body[place]? = some child) :
    node.Clear (place :: path) ↔ node.definesBlockTemplate = false ∧ child.Clear path := by
  constructor
  · intro hclear
    refine ⟨hclear [] List.nil_prefix (by simp) node rfl, fun front hfront hne around haround => ?_⟩
    refine hclear (place :: front) (List.prefix_cons_inj place |>.mpr hfront) (by simpa using hne) around ?_
    rw [within?, h]
    exact haround
  · rintro ⟨hnode, hchild⟩ front hfront hne around haround
    cases front with
    | nil =>
      obtain rfl : node = around := Option.some.inj haround
      exact hnode
    | cons first front =>
      obtain ⟨rfl, hrest⟩ := List.cons_prefix_cons.mp hfront
      rw [within?, h] at haround
      exact hchild front hrest (by simpa using hne) around haround

/-- The way into a body begins at one of its nodes. -/
theorem outside_cons (h : body[place]? = some node) : Outside body (place :: path) ↔ node.Clear path := by
  constructor
  · intro houtside front hfront hne around haround
    refine houtside (place :: front) (List.prefix_cons_inj place |>.mpr hfront) (by simpa using hne)
      around ?_
    rw [at?, h]
    exact haround
  · intro hclear front hfront hne around haround
    cases front with
    | nil => cases haround
    | cons first front =>
      obtain ⟨rfl, hrest⟩ := List.cons_prefix_cons.mp hfront
      rw [at?, h] at haround
      exact hclear front hrest (by simpa using hne) around haround

/-- In bodies whose nodes correspond one by one, what the nodes at a place lead to corresponds if it
does for each pair. -/
theorem rel_bind_getElem? {R S : Node → Node → Prop} {result : List Node} {f g : Node → Option Node}
    (h : List.Forall₂ R body result) (place : Nat)
    (hpair : ∀ node marked, body[place]? = some node → R node marked → Option.Rel S (f node) (g marked)) :
    Option.Rel S (body[place]?.bind f) (result[place]?.bind g) := by
  induction h generalizing place with
  | nil => exact .none
  | cons hnode _ ih =>
    cases place with
    | zero => exact hpair _ _ rfl hnode
    | succ place => exact ih place hpair

/-- Where nothing is rewritten, every node becomes itself. -/
theorem Becomes.self {outside : Prop} (h : ¬ outside) (node : Node) : Becomes owner outside node node := by
  cases node with
  | call head => exact .call fun hmarker => h hmarker.1
  | splice head other => exact .splice
  | block head body => exact .block fun _ => rfl

/-- At each path a node is rewritten as its kind and its place demand. -/
theorem becomes_kept (owner : Text) :
    KeptByMarking owner fun node marked =>
      ∀ path, Option.Rel (Becomes owner (node.Clear path)) (node.within? path) (marked.within? path) where
  marker head hname hargs path := by
    cases path with
    | nil => exact .some (.marker (clear_nil _) hname hargs)
    | cons place path => exact .none
  call head hname path := by
    cases path with
    | nil => exact .some (.call fun hmarker => hname hmarker.2)
    | cons place path => exact .none
  splice head other path := by
    cases path with
    | nil => exact .some .splice
    | cons place path => exact .none
  template head body hname htemplate path := by
    cases hnode : (block head body).within? path with
    | none => exact .none
    | some node =>
      cases path with
      | nil =>
        obtain rfl : block head body = node := Option.some.inj hnode
        exact .some (.block fun _ => rfl)
      | cons place path =>
        -- The block itself is on the way.
        refine .some (.self (fun hclear => ?_) node)
        have hopen := hclear [] List.nil_prefix (by simp) _ rfl
        rw [htemplate] at hopen
        cases hopen
  block head body inner hname htemplate h path := by
    cases path with
    | nil =>
      refine .some (.block ?_)
      rintro (hnot | hdefines)
      · exact absurd (clear_nil _) hnot
      · rw [htemplate] at hdefines
        cases hdefines
    | cons place path =>
      refine rel_bind_getElem? h place fun child marked hchild hbecomes => ?_
      have hclear : (block head body).Clear (place :: path) = child.Clear path :=
        propext ((clear_cons hchild).trans (and_iff_right htemplate))
      rw [hclear]
      exact hbecomes path

/-- At each path a body is rewritten as the kind and the place of the node there demand. -/
theorem becomes_of_markAll {result : List Node} (h : markAll owner body = .ok result) (path : List Nat) :
    Option.Rel (Becomes owner (Outside body path)) (at? body path) (at? result path) := by
  cases path with
  | nil => exact .none
  | cons place path =>
    refine rel_bind_getElem? ((becomes_kept owner).of_markAll h) place fun node marked hnode hbecomes => ?_
    rw [propext (outside_cons hnode)]
    exact hbecomes path

/-! ## The first marker that cannot be rewritten -/

/-- A path from a node on leads to a node outside nested block templates. -/
def Sees (node : Node) (path : List Nat) (other : Node) : Prop :=
  node.within? path = some other ∧ node.Clear path

/-- A path into a body leads to a node outside nested block templates. -/
def Exposes (body : List Node) (path : List Nat) (node : Node) : Prop :=
  at? body path = some node ∧ Outside body path

/-- The empty path leads to the node itself. -/
theorem sees_nil : node.Sees [] other ↔ other = node := by
  constructor
  · rintro ⟨hnode, -⟩
    exact (Option.some.inj hnode).symm
  · rintro rfl
    exact ⟨rfl, clear_nil _⟩

/-- A path leads into the body of a node that defines no block template. -/
theorem sees_cons : node.Sees (place :: path) other ↔
    node.definesBlockTemplate = false ∧ ∃ child, node.body[place]? = some child ∧ child.Sees path other := by
  constructor
  · rintro ⟨hother, hclear⟩
    obtain ⟨child, hchild, hother⟩ := Option.bind_eq_some_iff.mp hother
    obtain ⟨hnode, hclear⟩ := (clear_cons hchild).mp hclear
    exact ⟨hnode, child, hchild, hother, hclear⟩
  · rintro ⟨hnode, child, hchild, hother, hclear⟩
    exact ⟨Option.bind_eq_some_iff.mpr ⟨child, hchild, hother⟩, (clear_cons hchild).mpr ⟨hnode, hclear⟩⟩

/-- The empty path leads into no body. -/
theorem not_exposes_nil : ¬ Exposes body [] node := fun h => by cases h.1

/-- A path into a body leads to one of its nodes first. -/
theorem exposes_cons : Exposes body (place :: path) other ↔
    ∃ child, body[place]? = some child ∧ child.Sees path other := by
  constructor
  · rintro ⟨hother, houtside⟩
    obtain ⟨child, hchild, hother⟩ := Option.bind_eq_some_iff.mp hother
    exact ⟨child, hchild, hother, (outside_cons hchild).mp houtside⟩
  · rintro ⟨child, hchild, hother, hclear⟩
    exact ⟨Option.bind_eq_some_iff.mpr ⟨child, hchild, hother⟩, (outside_cons hchild).mpr hclear⟩

/-- At the first place of a body is its first node. -/
theorem exposes_zero {rest : List Node} : Exposes (node :: rest) (0 :: path) other ↔ node.Sees path other := by
  rw [exposes_cons]
  constructor
  · rintro ⟨child, hchild, hsees⟩
    obtain rfl : node = child := Option.some.inj hchild
    exact hsees
  · exact fun hsees => ⟨node, rfl, hsees⟩

/-- At the other places of a body are the nodes behind the first. -/
theorem exposes_succ {rest : List Node} :
    Exposes (node :: rest) ((place + 1) :: path) other ↔ Exposes rest (place :: path) other := by
  rw [exposes_cons, exposes_cons, List.getElem?_cons_succ]

/-- Inside a block that defines no block template the same nodes are seen as in its body. -/
theorem sees_cons_block {head : Statement} (h : (block head body).definesBlockTemplate = false) :
    (block head body).Sees (place :: path) other ↔ Exposes body (place :: path) other := by
  rw [sees_cons, exposes_cons, and_iff_right h]
  rfl

/-- What is so of a node, and of all that is seen from the nodes it owns, is so of all that is seen
from it. -/
theorem sees_of_body {P : Node → Prop} (hself : P node)
    (hbody : node.definesBlockTemplate = false →
      ∀ child ∈ node.body, ∀ path other, child.Sees path other → P other) :
    ∀ path other, node.Sees path other → P other := by
  intro path other hsees
  cases path with
  | nil =>
    obtain rfl := sees_nil.mp hsees
    exact hself
  | cons place path =>
    obtain ⟨hopen, child, hchild, hsees⟩ := sees_cons.mp hsees
    exact hbody hopen child (List.mem_of_getElem? hchild) path other hsees

/-- What a correspondence says of the nodes of one body alone is so of each of them. -/
theorem forall_mem_of_forall₂ {P : Node → Prop} {result : List Node}
    (h : List.Forall₂ (fun node _ => P node) body result) : ∀ node ∈ body, P node :=
  ((List.forall₂_and_left _ _).mp (h.imp fun _ _ hnode => ⟨hnode, hnode⟩)).1

/-- A node that can be rewritten shows no marker that cannot. -/
theorem sees_kept (owner : Text) :
    KeptByMarking owner fun node _ =>
      ∀ path other, node.Sees path other → other.misusesMarker = false where
  marker head hname hargs :=
    sees_of_body (by simp [misusesMarker, hargs]) fun _ child hchild => absurd hchild List.not_mem_nil
  call head hname :=
    sees_of_body (by simp [misusesMarker, hname]) fun _ child hchild => absurd hchild List.not_mem_nil
  splice head other := sees_of_body rfl fun _ child hchild => absurd hchild List.not_mem_nil
  template head body hname htemplate := by
    refine sees_of_body (by simp [misusesMarker, hname]) fun hopen => ?_
    rw [htemplate] at hopen
    cases hopen
  block head body inner hname htemplate h := by
    exact sees_of_body (by simp [misusesMarker, hname]) fun _ => forall_mem_of_forall₂ h

/-- A body that can be rewritten shows no marker that cannot. -/
theorem misusesMarker_of_exposes {result : List Node} (h : markAll owner body = .ok result)
    (hexposes : Exposes body path node) : node.misusesMarker = false := by
  cases path with
  | nil => exact absurd hexposes not_exposes_nil
  | cons place path =>
    obtain ⟨child, hchild, hsees⟩ := exposes_cons.mp hexposes
    exact forall_mem_of_forall₂ ((sees_kept owner).of_markAll h) child (List.mem_of_getElem? hchild)
      path node hsees

/-- Of the nodes that paths lead to, the first marker that cannot be rewritten is blamed. -/
def BlamesFirst (owner : Text) (leads : List Nat → Node → Prop) (fault : Fault) : Prop :=
  ∃ path node, leads path node ∧ node.Blames owner fault ∧
    ∀ earlier other, Before earlier path → leads earlier other → other.misusesMarker = false

/-- Nothing comes before the start. -/
theorem not_before_nil : ¬ Before path [] := fun h => by cases h

/-- Paths into the nodes behind the first of a body are ordered as those into the rest. -/
theorem before_of_succ {place' : Nat} {path' : List Nat}
    (h : Before ((place + 1) :: path) ((place' + 1) :: path')) : Before (place :: path) (place' :: path') := by
  cases h with
  | earlier hlt => exact .earlier (Nat.lt_of_succ_lt_succ hlt)
  | inside hbefore => exact .inside hbefore

/-- Of two paths one comes before the other. -/
theorem before_trichotomy (path path' : List Nat) : path = path' ∨ Before path path' ∨ Before path' path := by
  induction path generalizing path' with
  | nil =>
    cases path' with
    | nil => exact .inl rfl
    | cons place' path' => exact .inr (.inl .around)
  | cons place path ih =>
    cases path' with
    | nil => exact .inr (.inr .around)
    | cons place' path' =>
      rcases Nat.lt_trichotomy place place' with hlt | rfl | hgt
      · exact .inr (.inl (.earlier hlt))
      · rcases ih path' with rfl | hbefore | hbefore
        · exact .inl rfl
        · exact .inr (.inl (.inside hbefore))
        · exact .inr (.inr (.inside hbefore))
      · exact .inr (.inr (.earlier hgt))

/-- A mapped result is the error of the result. -/
theorem eq_error_of_map_eq_error {α β : Type} {f : α → β} {result : Except Fault α} {fault : Fault}
    (h : result.map f = .error fault) : result = .error fault := by
  cases result with
  | ok value => cases h
  | error other => rw [Except.error.inj h]

mutual

/-- A node that cannot be rewritten shows a first marker that cannot, and that one is blamed. -/
theorem blamesFirst_of_mark :
    ∀ {node : Node} {fault : Fault}, node.mark owner = .error fault → BlamesFirst owner node.Sees fault
  | .call head, fault, h => by
    rw [mark] at h
    split at h
    case isTrue hname =>
      split at h
      case h_1 => cases h
      case h_2 first rest hargs =>
        cases h
        exact ⟨[], _, sees_nil.mpr rfl, .arguments hname hargs, fun _ _ hearlier =>
          absurd hearlier not_before_nil⟩
    case isFalse => cases h
  | .block head body, fault, h => by
    rw [mark] at h
    split at h
    case isTrue hname =>
      cases h
      exact ⟨[], _, sees_nil.mpr rfl, .block hname, fun _ _ hearlier => absurd hearlier not_before_nil⟩
    case isFalse hname =>
      split at h
      case isTrue => cases h
      case isFalse htemplate =>
        have hopen : (block head body).definesBlockTemplate = false := by
          simp [definesBlockTemplate, htemplate]
        obtain ⟨path, node, hexposes, hblames, hfirst⟩ :=
          blamesFirst_of_markAll (eq_error_of_map_eq_error h)
        cases path with
        | nil => exact absurd hexposes not_exposes_nil
        | cons place path =>
          refine ⟨place :: path, node, (sees_cons_block hopen).mpr hexposes, hblames, ?_⟩
          intro earlier other hearlier hsees
          cases earlier with
          | nil =>
            obtain rfl := sees_nil.mp hsees
            simp [misusesMarker, hname]
          | cons first earlier =>
            exact hfirst _ other hearlier ((sees_cons_block hopen).mp hsees)
  | .splice head other, fault, h => by cases h

/-- A body that cannot be rewritten shows a first marker that cannot, and that one is blamed. -/
theorem blamesFirst_of_markAll :
    ∀ {body : List Node} {fault : Fault}, markAll owner body = .error fault →
      BlamesFirst owner (Exposes body) fault
  | [], fault, h => by cases h
  | node :: rest, fault, h => by
    rw [markAll] at h
    cases hnode : node.mark owner with
    | error other =>
      rw [hnode] at h
      obtain rfl : other = fault := Except.error.inj h
      obtain ⟨path, found, hsees, hblames, hfirst⟩ := blamesFirst_of_mark hnode
      refine ⟨0 :: path, found, exposes_zero.mpr hsees, hblames, ?_⟩
      intro earlier other hearlier hexposes
      cases hearlier with
      | around => exact absurd hexposes not_exposes_nil
      | earlier hlt => exact absurd hlt (Nat.not_lt_zero _)
      | inside hbefore => exact hfirst _ other hbefore (exposes_zero.mp hexposes)
    | ok marked =>
      rw [hnode] at h
      obtain ⟨path, found, hexposes, hblames, hfirst⟩ :=
        blamesFirst_of_markAll (eq_error_of_map_eq_error h)
      cases path with
      | nil => exact absurd hexposes not_exposes_nil
      | cons place path =>
        refine ⟨(place + 1) :: path, found, exposes_succ.mpr hexposes, hblames, ?_⟩
        intro earlier other hearlier hexposes
        -- What comes before it is in the first node of the body, or before it in the rest.
        cases earlier with
        | nil => exact absurd hexposes not_exposes_nil
        | cons first earlier =>
          cases first with
          | zero => exact (sees_kept owner).of_mark hnode earlier other (exposes_zero.mp hexposes)
          | succ first => exact hfirst _ other (before_of_succ hearlier) (exposes_succ.mp hexposes)

end

/-- Only a marker that cannot be rewritten is blamed. -/
theorem Blames.misusesMarker_eq {fault : Fault} (h : node.Blames owner fault) : node.misusesMarker = true := by
  cases h with
  | arguments named args_eq => simp [misusesMarker, named, args_eq]
  | block named => simp [misusesMarker, named]

/-- A marker is blamed in one way. -/
theorem Blames.unique {fault fault' : Fault} (h : node.Blames owner fault) (h' : node.Blames owner fault') :
    fault = fault' := by
  cases h with
  | arguments named args_eq =>
    cases h' with
    | arguments named' args_eq' =>
      obtain ⟨rfl, -⟩ := List.cons.inj (args_eq.symm.trans args_eq')
      rfl
  | block named =>
    cases h' with
    | block named' => rfl

/-- Of the nodes of a body only one marker is the first that cannot be rewritten. -/
theorem BlamesFirst.unique {fault fault' : Fault} (h : BlamesFirst owner (Exposes body) fault)
    (h' : BlamesFirst owner (Exposes body) fault') : fault = fault' := by
  obtain ⟨path, node, hexposes, hblames, hfirst⟩ := h
  obtain ⟨path', node', hexposes', hblames', hfirst'⟩ := h'
  rcases before_trichotomy path path' with rfl | hbefore | hbefore
  · obtain rfl : node = node' := Option.some.inj (hexposes.1.symm.trans hexposes'.1)
    exact hblames.unique hblames'
  · cases hblames.misusesMarker_eq.symm.trans (hfirst' path node hbefore hexposes)
  · cases hblames'.misusesMarker_eq.symm.trans (hfirst path' node' hbefore hexposes')

/-- A body is refused for exactly the first marker that cannot be rewritten. -/
theorem markAll_eq_error_iff (owner : Text) (body : List Node) (fault : Fault) :
    markAll owner body = .error fault ↔ BlamesFirst owner (Exposes body) fault := by
  refine ⟨blamesFirst_of_markAll, fun hblames => ?_⟩
  cases hmark : markAll owner body with
  | error other => rw [(blamesFirst_of_markAll hmark).unique hblames]
  | ok result =>
    obtain ⟨path, node, hexposes, hblames, -⟩ := hblames
    cases hblames.misusesMarker_eq.symm.trans (misusesMarker_of_exposes hmark hexposes)

/-- A body is refused exactly if it shows a marker that cannot be rewritten. -/
theorem exists_error_iff (owner : Text) (body : List Node) :
    (∃ fault, markAll owner body = .error fault) ↔
      ∃ path node, Exposes body path node ∧ node.misusesMarker = true := by
  constructor
  · rintro ⟨fault, hmark⟩
    obtain ⟨path, node, hexposes, hblames, -⟩ := blamesFirst_of_markAll hmark
    exact ⟨path, node, hexposes, hblames.misusesMarker_eq⟩
  · rintro ⟨path, node, hexposes, hmisuses⟩
    cases hmark : markAll owner body with
    | error fault => exact ⟨fault, rfl⟩
    | ok result => cases hmisuses.symm.trans (misusesMarker_of_exposes hmark hexposes)

/-- Rewriting a body turns its markers into splice points and does nothing else. It is refused
exactly if a marker outside nested block templates has arguments or owns a block, and then for the
first such marker. Otherwise the body and the result have nodes at the same paths: splice points for
the owner in place of the markers outside nested block templates, and all others as they were.
Putting the statements of the new splice points back gives the body again, and rewriting the result
under any name changes nothing. -/
theorem marking_rewrites_markers (owner : Text) (body : List Node) :
    ((∃ fault, markAll owner body = .error fault) ↔
      ∃ path node, Exposes body path node ∧ node.misusesMarker = true) ∧
    (∀ fault, markAll owner body = .error fault ↔ BlamesFirst owner (Exposes body) fault) ∧
    ∀ result, markAll owner body = .ok result →
      (∀ path, Option.Rel (Becomes owner (Outside body path)) (at? body path) (at? result path)) ∧
      withdrawAll body result = body ∧
      ∀ name, markAll name result = .ok result := by
  refine ⟨exists_error_iff owner body, markAll_eq_error_iff owner body, fun result hmark => ?_⟩
  exact ⟨becomes_of_markAll hmark, withdrawAll_of_forall₂ ((withdraw_kept owner).of_markAll hmark),
    fun name => markAll_of_forall₂ name ((mark_kept owner).of_markAll hmark)⟩

end Tapestry.Node
