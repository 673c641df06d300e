import Tapestry.Toml.Decoder
import Tapestry.Proofs.DocumentIndependence
import Tapestry.Proofs.RootScope
import Tapestry.Proofs.UnitTexts
import Tapestry.Proofs.ValueGrammar

/-!
# Where definitions are shown

A symbol of the root scope keeps the word that named it: the first argument of the statement that
reserved the cell, or the second of the one that defined the template. The word stands in the unit
of that statement. A function also keeps the unit, so its definition is shown there. A variable does
not, and its definition is shown in the document, also if another unit has reserved its cell.
-/

namespace Tapestry

/-! ## The words that name symbols -/

/-- The word that names what a statement defines. -/
def Statement.definedName? (statement : Statement) : Option Token :=
  if statement.head.text = Text.ofString "reg" then statement.args.head?
  else if statement.head.text = Text.ofString "macro" ∨ statement.head.text = Text.ofString "macroblock" then
    statement.args.tail.head?
  else none

/-- The second argument of a definition is the word it defines. -/
theorem Statement.definedName?_of_define {statement : Statement} (wantsBlock : Bool)
    (h : statement.head.text = if wantsBlock then Text.ofString "macroblock" else "macro") :
    statement.definedName? = statement.args.tail.head? := by
  cases wantsBlock <;> simp only [definedName?, h] <;> rfl

/-- The word that a statement defines is one of its words. -/
theorem Statement.mem_of_definedName? {statement : Statement} {token : Token}
    (h : statement.definedName? = some token) : token ∈ statement.tokens := by
  have hargs : token ∈ statement.args := by
    unfold definedName? at h
    split at h
    case isTrue => exact List.mem_of_head? h
    case isFalse =>
      split at h
      case isTrue => exact List.mem_of_mem_tail (List.mem_of_head? h)
      case isFalse => cases h
  exact List.mem_cons_of_mem _ hargs

/-- The word that named a symbol where it was defined; built-in functions have none. -/
def Symbol.nameToken? : Symbol → Option Token
  | .func f => f.source
  | .var v => some v.value.token

/-- Built-in functions come from no source. -/
theorem Function.source_of_mem_builtins : ∀ f ∈ Function.builtins, f.source = none := by
  decide

/-- The name of the built-in function that defines something in a way. -/
def Action.keyword? : Action → Option Text
  | .register => some "reg"
  | .define false => some "macro"
  | .define true => some "macroblock"
  | _ => none

/-- A built-in function that has a keyword is named by it. -/
theorem Function.name_of_mem_builtins :
    ∀ f ∈ Function.builtins, ∀ keyword ∈ f.action.keyword?, f.name = keyword := by
  decide

/-- Reserving a cell takes one word, the name. -/
theorem Function.arguments_of_register {f : Function} {tokens : List Token} {env : Env}
    {bindings : Bindings} {name : Text} {token : Token} (hf : f ∈ builtins)
    (haction : f.action = .register) (h : f.bind tokens env = .ok bindings)
    (hname : Bindings.identifier? bindings "name" = some (name, token)) :
    tokens = [token] ∧ name = token.text ∧ Value.IsName name := by
  have hinterface := interface?_of_mem_builtins f hf
  rw [haction] at hinterface
  obtain ⟨hstyle, hparams⟩ := Prod.mk.inj (Option.some.inj hinterface)
  simp only [bind, ← hstyle, bindPositional, ← hparams] at h
  split at h
  case isTrue hlength =>
    obtain ⟨word, rfl⟩ := List.length_eq_one_iff.mp hlength
    obtain ⟨v, hbind, hrest⟩ := exists_of_bind_eq_ok h
    obtain ⟨_, hnil, rfl⟩ := exists_of_map_eq_ok hrest
    cases hnil
    obtain ⟨hspelled, rfl⟩ := Value.bind_identifier_eq_ok_iff.mp hbind
    cases hname
    exact ⟨rfl, rfl, hspelled⟩
  case isFalse => cases h

namespace Expansion

variable {setup : Setup} {name file : Text} {body : List Node} {symbol : Symbol}
  {statement : Statement} {lifetime : Lifetime}

/-- A symbol that a statement of a unit installs in the root scope, at a point of an expansion. -/
inductive InstalledAt (setup : Setup) (name : Text) (body : List Node) :
    Text → Statement → Symbol → Prop where
  | mk {levels trail file node rest state record env symbol}
      (reached : Reached setup name body ⟨levels + 1, trail, file, node :: rest, state⟩)
      (stepped : stepAt setup trail file node state = .done record env)
      (installed : env.rootScope.symbols = state.env.rootScope.symbols ++ [symbol]) :
    InstalledAt setup name body file node.head symbol

/-- The symbols of the root scope are built-in functions, or were installed by statements. -/
theorem exists_installedAt_of_ready {last : State} (hrun : run setup name body = .ready last)
    (h : symbol ∈ last.env.rootScope.symbols) :
    (∃ f ∈ Function.builtins, symbol = .func f) ∨
      ∃ file statement, InstalledAt setup name body file statement symbol := by
  rcases exists_installs_of_ready hrun h with hbuiltin | ⟨frame, hreached, hinstalls⟩
  · exact .inl hbuiltin
  · cases hinstalls with
    | mk stepped installed => exact .inr ⟨_, _, .mk hreached stepped installed⟩

/-- A call of a built-in function. -/
theorem Calls.mem_builtins {frame : Frame} {node : Node} {f : Function} {bindings : Bindings}
    (hreached : Reached setup name body frame) (call : Calls frame.state.env node f bindings)
    (hbuiltin : f.isBuiltin = true) : f ∈ Function.builtins ∧ f.name = node.head.head.text := by
  refine ⟨?_, (Env.mem_of_resolveFunction call.resolved).2⟩
  rcases call.sound (sound_of_reached hreached) with hmem | htemplate
  · exact hmem
  · rw [hbuiltin] at htemplate
    cases htemplate

/-- A template keeps the word that names it, and its unit. -/
theorem source_of_definedFunction {wantsBlock : Bool} {visit : Visit} {title : Text} {token : Token}
    {template : Function}
    (h : definedFunction wantsBlock visit title token lifetime = .ok template) :
    template.name = title ∧ template.source = some token ∧ template.file = visit.file := by
  cases wantsBlock with
  | false =>
    cases h
    exact ⟨rfl, rfl, rfl⟩
  | true =>
    simp only [definedFunction, if_true] at h
    obtain ⟨action, _, h⟩ := exists_of_bind_eq_ok h
    cases h
    exact ⟨rfl, rfl, rfl⟩

/-- A push that adds a symbol to the root scope has pushed that symbol. -/
theorem eq_of_push_root {env after : Env} {pushed : Symbol}
    (hpush : env.push pushed lifetime = .ok after)
    (h : after.rootScope.symbols = env.rootScope.symbols ++ [symbol]) : symbol = pushed := by
  rcases (Env.grows_of_push hpush).rootScope.symbols with hsame | hmore
  · exact absurd (hsame.symm.trans h) (by simp)
  · exact List.singleton_inj.mp (List.append_cancel_left (h.symm.trans hmore))

/-- The symbol that a statement installs is named by the word that the statement defines, and a
function is filed under the unit of the statement. -/
theorem InstalledAt.named (h : InstalledAt setup name body file statement symbol) :
    ∃ token, statement.definedName? = some token ∧ symbol.nameToken? = some token ∧
      symbol.name = token.text ∧ ∀ f, symbol = .func f → f.file = file := by
  cases h with
  | @mk levels trail file node rest state record env symbol reached stepped installed =>
    -- A call of a built-in function that defines something begins with its keyword.
    have hcallee {f : Function} {bindings : Bindings} (keyword : Text)
        (call : Calls state.env node f bindings) (hkeyword : f.action.keyword? = some keyword)
        (hbuiltin : f.isBuiltin = true) : f ∈ Function.builtins ∧ node.head.head.text = keyword := by
      obtain ⟨hmem, hname⟩ := call.mem_builtins reached hbuiltin
      exact ⟨hmem, hname.symm.trans (Function.name_of_mem_builtins f hmem keyword hkeyword)⟩
    cases acts_of_stepAt stepped with
    | idle | emit | included => exact absurd installed (by simp)
    | @register f bindings title token _ call action named pushed =>
      obtain rfl := eq_of_push_root pushed installed
      obtain ⟨hmem, hhead⟩ := hcallee "reg" call (by rw [action]; rfl) (by simp [Function.isBuiltin, action])
      obtain ⟨harguments, rfl, -⟩ := Function.arguments_of_register hmem action call.bound named
      refine ⟨token, ?_, rfl, rfl, fun f hf => by cases hf⟩
      rw [Statement.definedName?, if_pos hhead]
      exact congrArg List.head? harguments
    | @define f bindings wantsBlock lifetime title token template _ call action lasting named defined
        pushed =>
      obtain rfl := eq_of_push_root pushed installed
      obtain ⟨hmem, hhead⟩ := hcallee (if wantsBlock then "macroblock" else "macro") call
        (by rw [action]; cases wantsBlock <;> rfl) (by simp [Function.isBuiltin, action])
      obtain ⟨first, second, behind, _, found, harguments, _, _, hread, hfound⟩ :=
        (Function.readsHeader_of_bind hmem action call.bound).findsHeader
      obtain ⟨rfl, rfl⟩ := Prod.mk.inj (Option.some.inj (hfound.symm.trans named))
      obtain ⟨htitle, hsource, hfile⟩ := source_of_definedFunction defined
      refine ⟨second, ?_, hsource, htitle.trans (Value.readIdentifier_eq_ok_iff.mp hread).2, ?_⟩
      · rw [Statement.definedName?_of_define wantsBlock hhead]
        exact congrArg (fun words : List Token => words.tail.head?) harguments
      · intro f hf
        obtain rfl := Symbol.func.inj hf
        exact hfile

end Expansion

/-! ## Definitions -/

/-- Where the definition of a symbol is shown: at the word that named it, in its own unit for a
function and in the document for a variable. -/
theorem Document.origin?_eq (path : Text) (symbol : Symbol) :
    origin? path symbol = symbol.nameToken?.map fun token =>
      ⟨Uri.ofPath (match symbol with
        | .func f => f.file
        | .var _ => path), token.span⟩ := by
  cases symbol <;> rfl

namespace Session

/-- The text of the unit at a path: that of the document, or what the disk has. -/
def textOf (disk : Disk) (uri text path : Text) : Option Text :=
  unitText (Uri.path uri) text disk.text? path

section Definitions

variable [Manifest.Decoder]

/-- What a document is expanded with. -/
def setup (disk : Disk) (uri : Text) : Expansion.Setup :=
  disk.setup (buildOptions disk (Uri.path uri))

/-- A stretch of a unit where a symbol got its name: the unit has the name there, as the word that a
statement of the unit defines, and the statement installs the symbol in the root scope. -/
inductive NamedAt (disk : Disk) (uri text : Text) (body : List Node) (symbol : Symbol) (file : Text) :
    Span → Prop where
  | mk {contents unit statement token} (read : textOf disk uri text file = some contents)
      (parsed : Source.parse contents = .ok unit) (mem : statement ∈ Node.bodyStatements unit)
      (installed : Expansion.InstalledAt (setup disk uri) (Uri.path uri) body file statement symbol)
      (defined : statement.definedName? = some token)
      (bytes : token.span.excerpt? contents = some symbol.name) :
    NamedAt disk uri text body symbol file token.span

variable {disk : Disk} {uri text file : Text} {body : List Node} {symbol : Symbol}
  {statement : Statement}

/-- A statement that installs a symbol stands in the text of its unit, with the name. -/
theorem namedAt_of_installedAt (hdisk : disk.Rooted) (hparse : Source.parse text = .ok body)
    (h : Expansion.InstalledAt (setup disk uri) (Uri.path uri) body file statement symbol) :
    ∃ token, symbol.nameToken? = some token ∧ NamedAt disk uri text body symbol file token.span ∧
      Uri.path (Uri.ofPath file) = file ∧ ∀ f, symbol = .func f → f.file = file := by
  obtain ⟨token, hdefined, htoken, hname, hfile⟩ := h.named
  obtain ⟨contents, unit, hread, hunit, hmem⟩ :
      ∃ contents unit, textOf disk uri text file = some contents ∧ Source.parse contents = .ok unit ∧
        statement ∈ Node.bodyStatements unit := by
    cases h with
    | mk reached =>
      obtain ⟨contents, unit, hread, hunit, hsubset⟩ :=
        Expansion.writtenAt_of_reached (hdisk.readsFrom _) hparse reached _ List.mem_cons_self
      exact ⟨contents, unit, hread, hunit, hsubset (Node.head_mem_statements _)⟩
  have hbytes := (Source.standsIn_of_parse hunit hmem).excerpt?_of_mem (Statement.mem_of_definedName? hdefined)
  rw [← hname] at hbytes
  exact ⟨token, htoken, .mk hread hunit hmem h hdefined hbytes, Uri.path_ofPath_of_unitText hread, hfile⟩

/-- The definition of a word is shown unless the root scope has no symbol of that name but a built-in
function. It is shown at a stretch where the symbol got its name: a statement has installed it in the
root scope, and the unit of the statement has the word there. The locator names that unit, except for
a variable that another unit has reserved, where it names the document. -/
theorem definition_stands_at_name (session : Session) (disk : Disk) (uri text word : Text)
    {result : Build} (hdisk : disk.Rooted) (hbuild : build disk (Uri.path uri) text = .ok result) :
    ∃ document body, (session.update disk uri text).1.find? uri = some document ∧
      Source.parse text = .ok body ∧
      (document.definition (Uri.path uri) word = none ↔
        ∀ symbol, result.scope.find? word = some symbol → ∃ f ∈ Function.builtins, symbol = .func f) ∧
      ∀ place, document.definition (Uri.path uri) word = some place →
        ∃ symbol file, result.scope.find? word = some symbol ∧ symbol.name = word ∧
          NamedAt disk uri text body symbol file place.span ∧
            (Uri.path place.uri = file ∨
              (∃ v, symbol = .var v) ∧ file ≠ Uri.path uri ∧ Uri.path place.uri = Uri.path uri) := by
  obtain ⟨body, last, hparse, hrun, rfl⟩ := Expansion.Setup.exists_ready_of_build hbuild
  refine ⟨_, body, find?_update hbuild, hparse, ?_⟩
  change (((Scope.find? last.env.rootScope word).bind (Document.origin? (Uri.path uri)) = none ↔ _) ∧
    ∀ place, (Scope.find? last.env.rootScope word).bind (Document.origin? (Uri.path uri)) = some place → _)
  cases hfound : Scope.find? last.env.rootScope word with
  | none => simp
  | some symbol =>
    obtain ⟨hmem, hname⟩ := Scope.mem_of_find? hfound
    rw [Option.bind_some, Document.origin?_eq]
    rcases Expansion.exists_installedAt_of_ready hrun hmem with ⟨f, hf, rfl⟩ | ⟨file, statement, hinstalled⟩
    · have hsource : (Symbol.func f).nameToken? = none := Function.source_of_mem_builtins f hf
      rw [hsource]
      refine ⟨⟨fun _ other hother => ⟨f, hf, (Option.some.inj hother).symm⟩, fun _ => rfl⟩, ?_⟩
      intro place hplace
      cases hplace
    · obtain ⟨token, htoken, hnamed, hpath, hfile⟩ := namedAt_of_installedAt hdisk hparse hinstalled
      rw [htoken]
      refine ⟨⟨fun hnone => absurd hnone (Option.some_ne_none _), fun hbuiltin => ?_⟩, fun place hplace => ?_⟩
      · obtain ⟨f, hf, rfl⟩ := hbuiltin symbol rfl
        have hsource : (Symbol.func f).nameToken? = none := Function.source_of_mem_builtins f hf
        rw [hsource] at htoken
        cases htoken
      · cases hplace
        refine ⟨symbol, file, rfl, hname, hnamed, ?_⟩
        cases symbol with
        | func f => exact .inl (hfile f rfl ▸ hpath)
        | var v =>
          have hdocument : Uri.path (Uri.ofPath (Uri.path uri)) = Uri.path uri := Uri.path_ofPath_path uri
          by_cases hown : file = Uri.path uri
          · exact .inl (hdocument.trans hown.symm)
          · exact .inr ⟨⟨v, rfl⟩, hown, hdocument⟩

/-- What a document shows about a word once its text has been built. -/
def definitionOf? (disk : Disk) (uri text word : Text) : Option (Option Reference) :=
  (build disk (Uri.path uri) text).toOption.map fun result =>
    Document.definition ⟨text, some result⟩ (Uri.path uri) word

/-- What is shown about a word is shown about a build of the text. -/
theorem exists_of_definitionOf? {word : Text} {shown : Option Reference}
    (h : definitionOf? disk uri text word = some shown) :
    ∃ result, build disk (Uri.path uri) text = .ok result ∧
      Document.definition ⟨text, some result⟩ (Uri.path uri) word = shown := by
  obtain ⟨result, hresult, hshown⟩ := Option.map_eq_some_iff.mp h
  exact ⟨result, eq_ok_of_toOption hresult, hshown⟩

end Definitions

/-- A disk with a unit that reserves a cell and defines a template. -/
def tools : Disk := ⟨[(["tools.br"], .file "reg x\nmacro global bump int n\n    _add x n\n")], []⟩

/-- A document that uses both. -/
def bumping : Text := "import 'tools.br'\nbump 3\n_null x\n"

/-- The template is shown where its unit defines it. -/
theorem definition_stands_at_name_bump :
    ∃ place symbol file body, definitionOf? tools "file:///main.br" bumping "bump" = some (some place) ∧
      place = ⟨"file:///tools.br", ⟨1, 13, 17⟩⟩ ∧ symbol.name = Text.ofString "bump" ∧
        NamedAt tools "file:///main.br" bumping body symbol file place.span ∧
          Uri.path place.uri = file := by
  have hshown : definitionOf? tools "file:///main.br" bumping "bump" =
      some (some ⟨"file:///tools.br", ⟨1, 13, 17⟩⟩) := by decide +kernel
  have hrooted : tools.Rooted := Disk.rooted_of_entries (by decide +kernel) (by decide +kernel)
  obtain ⟨result, hbuild, hplace⟩ := exists_of_definitionOf? hshown
  obtain ⟨document, body, hdocument, _, _, hplaces⟩ :=
    definition_stands_at_name empty tools "file:///main.br" bumping "bump" hrooted hbuild
  rw [find?_update hbuild] at hdocument
  cases hdocument
  obtain ⟨symbol, file, _, hname, hnamed, huri⟩ := hplaces _ hplace
  refine ⟨_, symbol, file, body, hshown, rfl, hname, hnamed, huri.resolve_right ?_⟩
  rintro ⟨_, _, hown⟩
  exact absurd hown (by decide +kernel)

/-- A variable that another unit reserves is shown in the document, where its name does not stand. -/
theorem definition_beside_name :
    ∃ result place contents, build tools (Uri.path "file:///main.br") bumping = .ok result ∧
      Document.definition ⟨bumping, some result⟩ (Uri.path "file:///main.br") "x" = some place ∧
        textOf tools "file:///main.br" bumping (Uri.path place.uri) = some contents ∧
          place.span.excerpt? contents ≠ some "x" := by
  have hshown : definitionOf? tools "file:///main.br" bumping "x" =
      some (some ⟨"file:///main.br", ⟨0, 4, 5⟩⟩) := by decide +kernel
  obtain ⟨result, hbuild, hplace⟩ := exists_of_definitionOf? hshown
  exact ⟨result, _, bumping, hbuild, hplace, by decide +kernel, by decide +kernel⟩

end Session

end Tapestry
