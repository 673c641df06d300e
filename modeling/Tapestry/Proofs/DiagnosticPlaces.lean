import Tapestry.Session
import Tapestry.Toml.Decoder
import Tapestry.Proofs.DepthLimit
import Tapestry.Proofs.FaultWords
import Tapestry.Proofs.ScopeChain
import Tapestry.Proofs.WordPlaces

/-!
# Where diagnostics stand

A diagnostic is shown at a word of its document. Where an expansion stops in another unit, the
visits around the stop begin in the document, and the innermost of them that is there has its first
word shown. Where it stops in the document, the fault blames a word of the statement it stops at,
which was written in the document.

Two sorts of fault are not shown at such a word. One complains about missing arguments and is shown
nowhere. The other is about a unit whose path came in through a variable, and is shown where the path
stands in the unit that the variable was bound in.
-/

namespace Tapestry

/-! ## Words of a text -/

namespace Source

/-- The words that the lexer comes to: those of the statements of a text, and those of the line it
stops at. -/
def lexedWords (text : Text) : List Token :=
  (lex text).statements.flatMap Statement.tokens ++
    match (lex text).stop with
    | some (.fault fault) => fault.line.toList.flatMap Statement.tokens
    | _ => []

variable {text : Text}

/-- A text that can be read has the statements that are lexed. -/
theorem lex_of_statements {found : List Statement} (h : statements text = .ok found) :
    (lex text).statements = found := by
  unfold statements at h
  split at h
  case h_1 => exact Except.ok.inj h
  case h_2 => cases h

/-- A text that cannot be read is lexed up to its failure. -/
theorem stop_of_statements {failure : Failure} (h : statements text = .error failure) :
    (lex text).stop = some failure := by
  unfold statements at h
  split at h
  case h_1 => cases h
  case h_2 other hstop => rw [hstop, Except.error.inj h]

/-- The words of the trees of a text are words of the text. -/
theorem bodyWords_subset {body : List Node} (h : parse text = .ok body) :
    Node.bodyWords body ⊆ lexedWords text := by
  rw [lexedWords, lex_of_statements (of_parse h).1]
  exact List.subset_append_left _ _

/-- A text that cannot be parsed has the word to blame for it. -/
theorem exists_word_of_parse_error {fault : Fault} (h : parse text = .error (.fault fault)) :
    ∃ token ∈ lexedWords text, fault.token = some token := by
  cases hstatements : statements text with
  | error failure =>
    rw [parse, hstatements] at h
    cases h
    obtain ⟨statement, _, rfl⟩ := exists_standsIn_of_statements_error hstatements
    refine ⟨statement.head, List.mem_append_right _ ?_, rfl⟩
    rw [stop_of_statements hstatements]
    exact List.mem_flatMap.mpr ⟨statement, List.mem_singleton_self _, List.mem_cons_self⟩
  | ok found =>
    rcases parse_cases hstatements with ⟨_, trees, hok, _⟩ | ⟨front, statement, back, rfl, _, _, herror⟩
    · rw [h] at hok
      cases hok
    · rw [h] at herror
      obtain rfl := Failure.fault.inj (Except.error.inj herror)
      refine ⟨statement.head, List.mem_append_left _ ?_, rfl⟩
      rw [lex_of_statements hstatements]
      exact List.mem_flatMap.mpr ⟨statement, by simp, List.mem_cons_self⟩

/-- A word of a text is cut from a line. -/
theorem exists_tokens_of_mem_lexedWords {token : Token} (h : token ∈ lexedWords text) :
    ∃ number line, token ∈ tokens number line := by
  rcases List.mem_append.mp h with hread | hstopped
  · obtain ⟨statement, hstatement, htoken⟩ := List.mem_flatMap.mp hread
    have hresults : (lex text).statements =
        ((results 1 (Lines.read text).lines).takeWhile Except.isOk).filterMap statement? := rfl
    rw [hresults] at hstatement
    obtain ⟨result, hresult, hfound⟩ := List.mem_filterMap.mp hstatement
    obtain ⟨entry, _, rfl⟩ := List.mem_map.mp (List.takeWhile_subset _ hresult)
    rcases readLine_cases (entry.2 : Nat) entry.1 with ⟨_, hline⟩ | ⟨other, htokens, _, hline⟩
    · rw [hline] at hfound
      cases hfound
    · rw [hline] at hfound
      split at hfound
      case isTrue =>
        cases hfound
        exact ⟨_, _, htokens ▸ htoken⟩
      case isFalse => cases hfound
  · cases hstatements : statements text with
    | ok found =>
      have hstop : (lex text).stop = none := by
        unfold statements at hstatements
        split at hstatements
        case h_1 hnone => exact hnone
        case h_2 => cases hstatements
      rw [hstop] at hstopped
      cases hstopped
    | error failure =>
      rw [stop_of_statements hstatements] at hstopped
      cases failure with
      | trouble trouble => cases hstopped
      | fault fault =>
        obtain ⟨statement, hstands, rfl⟩ := exists_standsIn_of_statements_error hstatements
        obtain ⟨other, hother, htoken⟩ := List.mem_flatMap.mp hstopped
        obtain rfl := List.mem_singleton.mp hother
        exact ⟨_, _, hstands.tokens_eq ▸ htoken⟩

/-- A word takes up room. -/
theorem span_ne_nowhere {token : Token} (h : token ∈ lexedWords text) :
    token.span ≠ Diagnostic.nowhere := by
  obtain ⟨number, line, htoken⟩ := exists_tokens_of_mem_lexedWords h
  obtain ⟨_, hcolumn, _⟩ := placed_of_mem_tokens htoken
  have hwidth := width_pos_of_mem_tokens htoken
  intro hspan
  have hpast : (token.column + token.width).toNat = 0 := congrArg Span.past hspan
  omega

end Source

/-! ## Strings in sight -/

/-- The strings that the variables of an environment hold were written as arguments of visits, each
at the visit that opened the scope of the variable or around it. Visits that ask for a unit open
none. -/
inductive Env.QuotedBy : List Visit → Env → Prop where
  | root {scope} (plain : ∀ v, .var v ∈ scope.symbols → v.value.kind ≠ .str) :
    QuotedBy [] (.root scope)
  | unit {visit around env} (asks : visit.asksForUnit = true) (outer : QuotedBy around env) :
    QuotedBy (visit :: around) env
  | nested {visit around scope env} (opens : visit.asksForUnit = false)
      (words : ∀ v, .var v ∈ scope.symbols → v.value.kind = .str →
        ∃ caller ∈ visit :: around, v.value.token ∈ caller.node.arguments)
      (outer : QuotedBy around env) : QuotedBy (visit :: around) (.nested scope env)

namespace Env.QuotedBy

variable {around : List Visit} {env : Env} {visit : Visit}

/-- The string that a variable holds was written at a visit around. -/
theorem exists_caller (h : QuotedBy around env) {v : Variable} (hv : .var v ∈ env.symbols)
    (hkind : v.value.kind = .str) : ∃ caller ∈ around, v.value.token ∈ caller.node.arguments := by
  induction h with
  | root plain => exact absurd hkind (plain v (by simpa using hv))
  | unit _ _ ih =>
    obtain ⟨caller, hcaller, hword⟩ := ih hv
    exact ⟨caller, List.mem_cons_of_mem _ hcaller, hword⟩
  | nested _ words _ ih =>
    rcases List.mem_append.mp (symbols_nested _ _ ▸ hv) with hinner | houter
    · exact words v hinner hkind
    · obtain ⟨caller, hcaller, hword⟩ := ih houter
      exact ⟨caller, List.mem_cons_of_mem _ hcaller, hword⟩

/-- The scopes may grow by a symbol that is no string. -/
theorem grows {after : Env} {symbol : Symbol} (h : QuotedBy around env)
    (hsymbol : ∀ v, symbol = .var v → v.value.kind ≠ .str) (hgrows : Grows symbol env after) :
    QuotedBy around after := by
  have hold {scope more : Scope} (hscope : Scope.Grows symbol scope more) {v : Variable}
      (hv : .var v ∈ more.symbols) (hkind : v.value.kind = .str) : .var v ∈ scope.symbols := by
    rcases hscope.symbols with hsame | hmore
    · exact hsame ▸ hv
    · rw [hmore, List.mem_append, List.mem_singleton] at hv
      exact hv.resolve_right fun hnew => hsymbol v hnew.symm hkind
  induction h generalizing after with
  | root plain =>
    cases hgrows with
    | root scope_grows => exact .root fun v hv hkind => plain v (hold scope_grows hv hkind) hkind
  | unit asks _ ih => exact .unit asks (ih hgrows)
  | nested opens words _ ih =>
    cases hgrows with
    | nested scope_grows outer_grows =>
      exact .nested opens (fun v hv hkind => words v (hold scope_grows hv hkind) hkind) (ih outer_grows)

/-- A scope may be left with the visit that opened it. -/
theorem leave (h : QuotedBy (visit :: around) env) (hvisit : visit.asksForUnit = false) :
    QuotedBy around env.outer := by
  cases h with
  | unit asks => exact absurd (hvisit.symm.trans asks) Bool.false_ne_true
  | nested _ _ outer => exact outer

/-- A unit may be ended with the visit that asked for it. -/
theorem endUnit (h : QuotedBy (visit :: around) env) (hvisit : visit.asksForUnit = true) :
    QuotedBy around env := by
  cases h with
  | unit _ outer => exact outer
  | nested opens => exact absurd (opens.symm.trans hvisit) Bool.false_ne_true

end Env.QuotedBy

namespace Expansion

variable {setup : Setup} {name file : Text} {body : List Node} {node : Node} {state : State}
  {trail : List Visit} {frame : Frame} {wantsBlock : Bool}

/-- What a visit binds for the scope it enters is read from its words, or the value of a variable in
sight. -/
theorem fromWords_of_enter {record : Visit} {scope : Scope} {inside : List Node} {origin : Text}
    (h : stepAt setup trail file node state = .enter record scope inside origin) :
    ∀ v ∈ record.bindings, v.FromWords record.node.arguments state.env := by
  cases acts_of_stepAt h with
  | splice => exact fun _ hv => absurd hv List.not_mem_nil
  | template call => exact Function.fromWords_of_bind call.bound
  | blockTemplate call => exact Function.fromWords_of_bind call.bound

/-- Steps keep track of where strings were written. -/
theorem quotedBy_kept (setup : Setup) :
    Kept setup (fun trail _ state => state.env.QuotedBy trail) (fun _ _ => True) where
  done := by
    intro trail file node state record env hstate _ hstep
    cases acts_of_stepAt hstep with
    | idle | emit | included => exact hstate
    | register _ _ _ pushed =>
      refine hstate.grows (fun v hv hkind => ?_) (Env.grows_of_push pushed)
      obtain rfl := Symbol.var.inj hv
      cases hkind
    | define _ _ _ _ _ pushed =>
      refine hstate.grows (fun v hv => ?_) (Env.grows_of_push pushed)
      cases hv
  enter := by
    intro trail file node state record scope body origin hstate _ hstep
    refine ⟨.nested (asksForUnit_of_enter hstep) (fun v hv hkind => ?_) hstate, fun _ _ => trivial⟩
    rw [symbols_of_enter hstep] at hv
    obtain ⟨w, hw, hsame⟩ := List.mem_map.mp hv
    obtain rfl := Symbol.var.inj hsame
    -- An argument stands at the call, or its value was in sight there already.
    rcases fromWords_of_enter hstep w hw with hword | ⟨_, found, hfound, hvalue⟩
    · exact ⟨record, List.mem_cons_self, hword⟩
    · rw [← hvalue] at hkind ⊢
      obtain ⟨caller, hcaller, hword⟩ := hstate.exists_caller hfound hkind
      exact ⟨caller, List.mem_cons_of_mem _ hcaller, hword⟩
  leave := by
    intro trail file node state record scope body origin after _ _ hstep hafter
    exact hafter.leave (asksForUnit_of_enter hstep)
  unit := by
    intro trail file node state record unit body hstate _ hstep
    exact ⟨.unit (asksForUnit_of_unit hstep) hstate, fun _ _ => trivial⟩
  endUnit := by
    intro trail file node state record unit body after _ _ hstep hafter
    exact hafter.endUnit (asksForUnit_of_unit hstep)

/-- Strings in sight were written at the visits around, at every point of an expansion. -/
theorem quotedBy_of_reached (h : Reached setup name body frame) :
    frame.state.env.QuotedBy frame.trail := by
  refine ((quotedBy_kept setup).reached (.root fun v hv => ?_) (fun _ _ => trivial) h).1
  obtain ⟨f, _, hsymbol⟩ := List.mem_map.mp hv
  cases hsymbol

/-! ## Expressions of the document -/

/-- An expression that was written in the document, if it is filed under the name of the document. -/
def Within (name : Text) (body : List Node) (file : Text) (node : Node) : Prop :=
  file = name → node.statements ⊆ Node.bodyStatements body

/-- What an expression owns was written where it was. -/
theorem Within.of_subset {owned : List Node} (h : Within name body file node)
    (hsubset : Node.bodyStatements owned ⊆ node.statements) :
    ∀ child ∈ owned, Within name body file child :=
  fun _ hchild hfile _ hmem => h hfile (hsubset (Node.statements_subset_of_mem hchild hmem))

/-- The words of an expression of the document are words of the document. -/
theorem Within.words_subset (h : Within name body file node) (hfile : file = name) :
    node.words ⊆ Node.bodyWords body := by
  intro token htoken
  obtain ⟨statement, hstatement, hmem⟩ := List.mem_flatMap.mp htoken
  exact List.mem_flatMap.mpr ⟨statement, h hfile hstatement, hmem⟩

/-- The record of a step is about an expression of the document, if the step is. -/
theorem Within.record {outcome : Step} (h : Within name body file node)
    (hstep : stepAt setup trail file node state = outcome) :
    Within name body outcome.record.file outcome.record.node := by
  have hacts := acts_of_stepAt hstep
  rw [hacts.record_file, hacts.record_node]
  exact h

/-- A function with a body from where it is filed, and with its arguments in order. -/
structure FiledFunction (name : Text) (body : List Node) (f : Function) : Prop where
  orderly : f.Orderly
  written : ∀ node ∈ f.body, Within name body f.file node

/-- A state in which everything filed under the name of the document was written there: what is
visited around, and what is kept in templates and blocks. The outermost visit is in the document. -/
structure Filed (name : Text) (body : List Node) (trail : List Visit) (file : Text) (state : State) :
    Prop where
  main_mem : name ∈ state.files
  around : ∀ visit ∈ trail, Within name body visit.file visit.node
  outermost : (file :: trail.map Visit.file).getLast? = some name
  functions : ∀ f, .func f ∈ state.env.symbols → FiledFunction name body f
  blocks : ∀ entry ∈ state.env.blocks, ∀ node ∈ entry.2.body, Within name body entry.2.file node

/-- A template that a header of the document defines is filed. -/
theorem filed_of_definedFunction {visit : Visit} {title : Text} {token : Token}
    {lifetime : Lifetime} {template : Function} (hvisit : Within name body visit.file visit.node)
    (hnames : ((visit.bindings.drop 2).map Variable.name).Nodup)
    (h : definedFunction wantsBlock visit title token lifetime = .ok template) :
    FiledFunction name body template := by
  have hparams := hnames.sublist (Function.headerParams_sublist visit.bindings)
  have howned := Node.bodyStatements_body_subset visit.node
  obtain ⟨action, rfl, ⟨-, rfl⟩ | ⟨marked, -, hmarked, rfl⟩⟩ := exists_of_definedFunction h
  · exact ⟨⟨rfl, hparams⟩, hvisit.of_subset howned⟩
  · exact ⟨⟨rfl, hparams⟩, hvisit.of_subset (Node.bodyStatements_of_markAll hmarked ▸ howned)⟩

/-- A definition binds parameters of different names. -/
theorem nodup_of_define {env : Env} {function : Function} {bindings : Bindings}
    (call : Calls env node function bindings) (horderly : function.Orderly)
    (haction : function.action = .define wantsBlock) :
    ((bindings.drop 2).map Variable.name).Nodup := by
  have hstyle : function.style = .header := by simpa [Function.Orderly, haction] using horderly
  have hbound := call.bound
  rw [Function.bind, hstyle] at hbound
  exact (Function.of_bindHeader hbound).2

namespace Filed

variable {trail : List Visit} {file : Text} {state : State} {visit : Visit}

/-- The environment may grow by a function that is filed. -/
theorem adds {env : Env} {symbol : Symbol} (h : Filed name body trail file state)
    (hadds : Env.Adds symbol state.env env) (hsymbol : ∀ f, symbol = .func f → FiledFunction name body f) :
    Filed name body trail file { state.record visit with env } where
  main_mem := h.main_mem
  around := h.around
  outermost := h.outermost
  functions f hf := by
    rcases (hadds.mem_symbols _).mp hf with hnew | hold
    · exact hsymbol f hnew.symm
    · exact h.functions f hold
  blocks := by
    change ∀ entry ∈ env.blocks, _
    exact hadds.blocks_eq ▸ h.blocks

/-- A body may be entered in a scope of variables. -/
theorem enter {scope : Scope} {origin : Text} (h : Filed name body trail file state)
    (hvisit : Within name body visit.file visit.node) (hfile : visit.file = file)
    (hscope : ∀ f, .func f ∉ scope.symbols)
    (hblocks : ∀ entry ∈ scope.blocks, ∀ node ∈ entry.2.body, Within name body entry.2.file node) :
    Filed name body (visit :: trail) origin ((state.record visit).enter scope) where
  main_mem := h.main_mem
  around := List.forall_mem_cons.mpr ⟨hvisit, h.around⟩
  outermost := by
    rw [List.map_cons, hfile, List.getLast?_cons_cons]
    exact h.outermost
  functions f hf := by
    rcases List.mem_append.mp (Env.symbols_nested scope state.env ▸ hf) with hinner | houter
    · exact absurd hinner (hscope f)
    · exact h.functions f houter
  blocks entry hentry := by
    rcases List.mem_append.mp (Env.blocks_nested scope state.env ▸ hentry) with hinner | houter
    · exact hblocks entry hinner
    · exact h.blocks entry houter

end Filed

/-- Steps keep everything filed. -/
theorem filed_kept (setup : Setup) (name : Text) (body : List Node) :
    Kept setup (Filed name body) (Within name body) where
  done := by
    intro trail file node state record env hstate hnode hstep
    cases acts_of_stepAt hstep with
    | idle | emit | included => exact { hstate with }
    | register _ _ _ pushed => exact hstate.adds (Env.adds_of_push pushed) fun _ hf => by cases hf
    | define call action _ _ defined pushed =>
      have horderly := (hstate.functions _ (Env.mem_of_resolveFunction call.resolved).1).orderly
      refine hstate.adds (Env.adds_of_push pushed) fun f hf => ?_
      obtain rfl := Symbol.func.inj hf
      exact filed_of_definedFunction hnode (nodup_of_define call horderly action) defined
  enter := by
    intro trail file node state record scope inside origin hstate hnode hstep
    have hacts := acts_of_stepAt hstep
    have hfile : record.file = file := hacts.record_file
    have hrecord : Within name body record.file record.node := hnode.record hstep
    have hscope : ∀ f, .func f ∉ scope.symbols := by
      intro f hf
      rw [symbols_of_enter hstep] at hf
      obtain ⟨_, _, hsymbol⟩ := List.mem_map.mp hf
      cases hsymbol
    cases hacts with
    | splice _ found =>
      exact ⟨hstate.enter hrecord hfile hscope fun _ hentry => absurd hentry List.not_mem_nil,
        hstate.blocks _ (Env.mem_of_block? found)⟩
    | template call action pushed =>
      have hfiled := hstate.functions _ (Env.mem_of_resolveFunction call.resolved).1
      refine ⟨hstate.enter hrecord hfile hscope fun entry hentry => ?_, ?_⟩
      · rw [Scope.eq_of_pushAll pushed] at hentry
        cases hentry
      · simpa only [Function.body, action] using hfiled.written
    | blockTemplate call action pushed =>
      have hfiled := hstate.functions _ (Env.mem_of_resolveFunction call.resolved).1
      refine ⟨hstate.enter hrecord hfile hscope fun entry hentry => ?_, ?_⟩
      · rw [Scope.eq_of_pushAll pushed] at hentry
        rcases Scope.mem_blocks_addBlock hentry with rfl | hold
        · exact hnode.of_subset (Node.bodyStatements_body_subset node)
        · cases hold
      · simpa only [Function.body, action] using hfiled.written
  leave := by
    intro trail file node state record scope inside origin after hstate _ _ hafter
    exact {
      main_mem := hafter.main_mem
      around := (List.forall_mem_cons.mp hafter.around).2
      outermost := hstate.outermost
      functions := fun f hf => hafter.functions f (Env.symbols_outer_subset _ hf)
      blocks := fun entry hentry => hafter.blocks entry (Env.blocks_outer_subset _ hentry) }
  unit := by
    intro trail file node state record unit inside hstate hnode hstep
    have hacts := acts_of_stepAt hstep
    have hfile : record.file = file := hacts.record_file
    have hrecord : Within name body record.file record.node := hnode.record hstep
    cases hacts with
    | unit call action path loaded outside fresh =>
      -- A unit that is begun is not the document, which has been read from the start.
      have hother : (setup.loader _ file).name ≠ name := fun heq => fresh (heq ▸ hstate.main_mem)
      refine ⟨{
        main_mem := List.mem_append_left _ hstate.main_mem
        around := List.forall_mem_cons.mpr ⟨hrecord, hstate.around⟩
        outermost := ?_
        functions := hstate.functions
        blocks := hstate.blocks }, fun _ _ hsame => absurd hsame hother⟩
      rw [List.map_cons, hfile, List.getLast?_cons_cons]
      exact hstate.outermost
  endUnit := by
    intro trail file node state record unit inside after hstate _ _ hafter
    exact {
      main_mem := hafter.main_mem
      around := (List.forall_mem_cons.mp hafter.around).2
      outermost := hstate.outermost
      functions := hafter.functions
      blocks := hafter.blocks }

/-- At every point reached, everything is filed. -/
theorem filed_of_reached (h : Reached setup name body frame) :
    Filed name body frame.trail frame.file frame.state ∧
      ∀ node ∈ frame.nodes, Within name body frame.file node := by
  refine (filed_kept setup name body).reached ?_
    (fun _ hnode _ => Node.statements_subset_of_mem hnode) h
  refine ⟨List.mem_singleton_self _, fun _ hvisit => absurd hvisit List.not_mem_nil, rfl, fun f hf => ?_,
    fun _ hentry => absurd hentry List.not_mem_nil⟩
  obtain ⟨g, hg, hsymbol⟩ := exists_builtin_of_initial hf
  obtain rfl := Symbol.func.inj hsymbol
  obtain ⟨horderly, hbody⟩ := Function.of_mem_builtins hg
  exact ⟨horderly, fun node hnode => absurd (hbody ▸ hnode) List.not_mem_nil⟩

/-! ## Stops -/

/-- What a fault at a point reached blames: a word of the expression it is about, if any, or the word
of a path that was written at a visit around. -/
theorem blames_of_fails {levels : Nat} {rest : List Node} {fault : Fault}
    (hreached : Reached setup name body ⟨levels, trail, file, node :: rest, state⟩)
    (hfails : Frame.Fails setup ⟨levels, trail, file, node :: rest, state⟩ (.fault fault)) :
    fault.Points node.words ∨
      (fault.kind = .importFailed ∨ fault.kind = .importCycle) ∧
        ∃ caller ∈ trail, ∃ token ∈ caller.node.arguments, fault.token = some token := by
  cases hfails with
  | tooDeep => exact .inl (Fault.points_blame node.callee_mem_words _ _)
  | step failed =>
    have horderly : ∀ f, .func f ∈ state.env.symbols → f.Orderly := fun f hf =>
      ((filed_of_reached hreached).1.functions f hf).orderly
    have hpoints := points_step setup.loader (Visit.start trail node file state.env) horderly
    rw [show step setup.loader state _ = _ from failed] at hpoints
    rcases hpoints with hpoints | ⟨hkind, found, hfound, hstr, htoken⟩
    · exact .inl hpoints
    · obtain ⟨caller, hcaller, hword⟩ := (quotedBy_of_reached hreached).exists_caller hfound hstr
      exact .inr ⟨hkind, caller, hcaller, _, hword, htoken⟩

end Expansion

/-- Where a build fails, with the visits around: before anything is expanded, or at an expression that
the expansion reaches. -/
inductive Expansion.Setup.FailsAt (setup : Setup) (name source : Text) (failure : Failure) :
    List Visit → Prop where
  | unread (failed : Source.parse source = .error failure) : FailsAt setup name source failure []
  | reached {body levels record around rest state} (parsed : Source.parse source = .ok body)
      (point : Reached setup name body
        ⟨levels, around, record.file, record.node :: rest, state⟩)
      (fails : Frame.Fails setup
        ⟨levels, around, record.file, record.node :: rest, state⟩ failure) :
    FailsAt setup name source failure (record :: around)

/-- A build that fails has failed at such a place, which the error knows. -/
theorem Expansion.Setup.failsAt_of_build {setup : Setup} {name source : Text} {error : Error}
    (h : setup.build name source = .error error) :
    setup.FailsAt name source error.failure error.trail := by
  unfold build at h
  cases hparse : Source.parse source with
  | error other =>
    rw [hparse] at h
    cases h
    exact .unread hparse
  | ok body =>
    rw [hparse] at h
    obtain ⟨last, hstopped⟩ := (Progress.eq_stopped_of_build h).1
    obtain ⟨frame, record, hreached, hrecords, htrail, hfails⟩ := exists_fails_of_stopped hstopped
    obtain ⟨levels, around, file, nodes, state⟩ := frame
    cases nodes with
    | nil => cases hrecords
    | cons node rest =>
      obtain ⟨rfl, rfl⟩ := Prod.mk.inj hrecords.place.1
      rw [htrail]
      exact .reached hparse hreached hfails

/-! ## Diagnostics -/

/-- Where the diagnostic of a fault stands, in the document of a name. -/
inductive Diagnostic.Stands (name text : Text) (fault : Fault) (trail : List Visit) : Span → Prop where
  /-- At a word of the document. -/
  | word {token} (mem : token ∈ Source.lexedWords text) : Stands name text fault trail token.span
  /-- Nowhere, if a statement of the document lacks arguments. -/
  | missing {visit around} (inside : trail = visit :: around) (own : visit.file = name)
      (kind : fault.kind = .argumentLen) (unblamed : fault.token = none) :
    Stands name text fault trail nowhere
  /-- At a word of another unit, if a statement of the document asks for a unit by a path that was
  written there. -/
  | foreign {visit around caller token} (inside : trail = visit :: around) (own : visit.file = name)
      (kind : fault.kind = .importFailed ∨ fault.kind = .importCycle) (mem : caller ∈ around)
      (other : caller.file ≠ name) (word : token ∈ caller.node.arguments)
      (blamed : fault.token = some token) : Stands name text fault trail token.span

namespace Diagnostic

variable {name text : Text} {fault : Fault} {trail : List Visit}

/-- The stretch that a fault is shown at. -/
def place (name : Text) (fault : Fault) (trail : List Visit) : Span :=
  (blamed name fault trail).elim nowhere Token.span

/-- A fault that blames a word is shown there, if it is about the document. -/
theorem place_of_token {token : Token} (h : fault.token = some token)
    (htrail : ∀ visit ∈ trail.head?, visit.file = name) : place name fault trail = token.span := by
  cases trail with
  | nil => simp [place, blamed, h]
  | cons visit around => simp [place, blamed, h, htrail visit rfl]

/-- A fault in another unit is shown at the innermost visit of the document. -/
theorem exists_place_of_other {visit : Visit} {around : List Visit} (h : visit.file ≠ name)
    (houtermost : (visit.file :: around.map Visit.file).getLast? = some name) :
    ∃ caller ∈ around, caller.file = name ∧
      place name fault (visit :: around) = caller.node.callee.span := by
  have hmem : name ∈ around.map Visit.file :=
    (List.mem_cons.mp (List.mem_of_getLast? houtermost)).resolve_left (Ne.symm h)
  obtain ⟨outer, houter, hfile⟩ := List.mem_map.mp hmem
  have hsome : (around.find? (·.file == name)).isSome = true :=
    List.find?_isSome.mpr ⟨outer, houter, by simpa using hfile⟩
  obtain ⟨caller, hcaller⟩ := Option.isSome_iff_exists.mp hsome
  refine ⟨caller, List.mem_of_find?_eq_some hcaller, by simpa using List.find?_some hcaller, ?_⟩
  simp [place, blamed, h, hcaller]

/-- The diagnostic of a fault stands at a word of the document, with two exceptions. -/
theorem stands_of_build {setup : Expansion.Setup} {error : Error}
    (h : setup.build name text = .error error) (hfault : error.failure = .fault fault) :
    Stands name text fault error.trail (place name fault error.trail) := by
  have hfails := Expansion.Setup.failsAt_of_build h
  rw [hfault] at hfails
  generalize error.trail = trail at hfails
  cases hfails with
  | unread failed =>
    obtain ⟨token, hmem, htoken⟩ := Source.exists_word_of_parse_error failed
    rw [place_of_token htoken fun _ hnone => absurd hnone (Option.not_mem_none _)]
    exact .word hmem
  | @reached body levels record around rest state parsed point fails =>
    have hwords := Source.bodyWords_subset parsed
    obtain ⟨hfiled, hnodes⟩ := Expansion.filed_of_reached point
    have hnode := hnodes record.node List.mem_cons_self
    -- A fault in another unit is shown at a visit around it, one in the document where it blames.
    by_cases hown : record.file = name
    · have hhead : ∀ visit ∈ (record :: around).head?, visit.file = name := by simpa using hown
      rcases Expansion.blames_of_fails point fails with
        (⟨token, hmem, htoken⟩ | ⟨hnone, hline, hkind⟩) | ⟨hkind, caller, hcaller, token, hword, htoken⟩
      · rw [place_of_token htoken hhead]
        exact .word (hwords (hnode.words_subset hown hmem))
      · have hplace : place name fault (record :: around) = nowhere := by
          simp [place, blamed, hown, hnone, hline]
        rw [hplace]
        exact .missing rfl hown hkind hnone
      · rw [place_of_token htoken hhead]
        by_cases hfile : caller.file = name
        · exact .word (hwords ((hfiled.around caller hcaller).words_subset hfile
            (caller.node.arguments_subset_words hword)))
        · exact .foreign rfl hown hkind hcaller hfile hword htoken
    · obtain ⟨caller, hcaller, hfile, hplace⟩ := exists_place_of_other hown hfiled.outermost
      rw [hplace]
      exact .word (hwords ((hfiled.around caller hcaller).words_subset hfile caller.node.callee_mem_words))

end Diagnostic

namespace Session

/-- A text of a document that cannot be built for a fault of the language has one diagnostic. It
stands at a word of the text, also where the fault arose in another unit or in a template from there.
There are two exceptions, with a statement of the document where the expansion stops. If it lacks
arguments then the diagnostic stands nowhere, and no word does. If it asks for a unit by a path that
was written at a call in another unit, then the diagnostic stands where the path stands in that unit. -/
theorem diagnostics_stand_where_blamed [Manifest.Decoder] (session : Session) (disk : Disk)
    (uri text : Text) {error : Error} {fault : Fault} (h : build disk (Uri.path uri) text = .error error)
    (hfault : error.failure = .fault fault) :
    (∃ diagnostic, (session.update disk uri text).2 = [diagnostic] ∧
      Diagnostic.Stands (Uri.path uri) text fault error.trail diagnostic.span) ∧
    ∀ token ∈ Source.lexedWords text, token.span ≠ Diagnostic.nowhere := by
  refine ⟨⟨.ofError (Uri.path uri) error, ?_, ?_⟩, fun _ => Source.span_ne_nowhere⟩
  · simp only [update, h]
  · have hstands := Diagnostic.stands_of_build h hfault
    rwa [Diagnostic.ofError, hfault]

/-- The kind of the fault that keeps a text from being built. -/
def faultKind? : Except Error Build → Option FaultKind
  | .ok _ => none
  | .error error => error.kind?

/-- A kind of fault is that of a fault which the build has ended with. -/
theorem exists_of_faultKind? {result : Except Error Build} {kind : FaultKind}
    (h : faultKind? result = some kind) :
    ∃ error fault, result = .error error ∧ error.failure = .fault fault ∧ fault.kind = kind := by
  cases result with
  | ok build => cases h
  | error error =>
    obtain ⟨failure, context⟩ := error
    cases failure with
    | fault fault => exact ⟨_, fault, rfl, rfl, Option.some.inj h⟩
    | trouble trouble => cases h

/-- A disk with two units. -/
def twoFiles : Disk :=
  ⟨[(["astray.br"], .file "stray\n"), (["caller.br"], .file "bring 'nowhere.br'\n")], []⟩

/-- A unit that cannot be expanded is shown where the document asks for it. -/
theorem diagnostics_stand_where_blamed_astray :
    ∃ error fault diagnostic,
      build twoFiles (Uri.path "main.br") "__plus 1\nimport 'astray.br'\n" = .error error ∧
        error.failure = .fault fault ∧ fault.kind = .functionNotFound ∧
        (empty.update twoFiles "main.br" "__plus 1\nimport 'astray.br'\n").2 = [diagnostic] ∧
          ∃ token ∈ Source.lexedWords "__plus 1\nimport 'astray.br'\n", diagnostic.span = token.span := by
  have hfault : faultKind? (build twoFiles (Uri.path "main.br") "__plus 1\nimport 'astray.br'\n") =
      some .functionNotFound := by decide +kernel
  obtain ⟨error, fault, hbuild, hfault, hkind⟩ := exists_of_faultKind? hfault
  obtain ⟨⟨diagnostic, hupdate, hstands⟩, _⟩ :=
    diagnostics_stand_where_blamed empty twoFiles "main.br" "__plus 1\nimport 'astray.br'\n" hbuild
      hfault
  refine ⟨error, fault, diagnostic, hbuild, hfault, hkind, hupdate, ?_⟩
  generalize diagnostic.span = span at hstands
  cases hstands with
  | @word token mem => exact ⟨token, mem, rfl⟩
  | missing _ _ kind => rw [hkind] at kind; cases kind
  | foreign _ _ kind => rw [hkind] at kind; rcases kind with kind | kind <;> cases kind

/-- A text that cannot be built and has its diagnostic at none of its words. -/
def ShownBeside (disk : Disk) (uri text : Text) : Prop :=
  ∃ error fault diagnostic, build disk (Uri.path uri) text = .error error ∧
    error.failure = .fault fault ∧ (empty.update disk uri text).2 = [diagnostic] ∧
      ∀ token ∈ Source.lexedWords text, diagnostic.span ≠ token.span

/-- A text is shown beside its words if the place of its one diagnostic is that of none of them. -/
theorem shownBeside_of_span {disk : Disk} {uri text : Text} (kind : FaultKind) (span : Span)
    (hkind : faultKind? (build disk (Uri.path uri) text) = some kind)
    (hspan : (empty.update disk uri text).2.map Diagnostic.span = [span])
    (hwords : ∀ token ∈ Source.lexedWords text, span ≠ token.span) : ShownBeside disk uri text := by
  obtain ⟨error, fault, hbuild, hfault, _⟩ := exists_of_faultKind? hkind
  obtain ⟨diagnostic, hupdate, rfl⟩ := List.map_eq_singleton_iff.mp hspan
  exact ⟨error, fault, diagnostic, hbuild, hfault, hupdate, hwords⟩

/-- A call that lacks its argument is shown at no word of the document, and nor is a unit that cannot
be found if its path comes from a call in another unit. -/
theorem diagnostics_beside_document :
    ShownBeside twoFiles "main.br" "_null\n" ∧
      ShownBeside twoFiles "main.br"
        "macro global bring str path\n    import path\nimport 'caller.br'\n" :=
  ⟨shownBeside_of_span .argumentLen ⟨0, 0, 0⟩ (by decide +kernel) (by decide +kernel)
    (by decide +kernel),
    shownBeside_of_span .importFailed ⟨0, 6, 18⟩ (by decide +kernel) (by decide +kernel)
      (by decide +kernel)⟩

end Session

end Tapestry
