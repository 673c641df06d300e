import Tapestry.Toml.Decoder
import Tapestry.Proofs.CacheTables
import Tapestry.Proofs.DocumentIndependence
import Tapestry.Proofs.PublishedSymbols

/-!
# What completes a word

The proposals for the beginning of a word are the symbols in sight whose names go on from it, in
ascending order of names and at most a hundred. In sight is what the last build of the document
publishes, also if later texts could not be built, and the built-in functions if there is no build.
-/

namespace Tapestry

/-! ## Proposals of a scope -/

namespace Proposal

variable {scope : Scope} {beginning : Text} {proposal : Proposal}

/-- A symbol is proposed under its name. -/
@[simp]
theorem label_ofSymbol (symbol : Symbol) : (ofSymbol symbol).label = symbol.name := by
  cases symbol <;> rfl

/-- All symbols of a scope whose names begin with a text, in order of names. -/
def found (scope : Scope) (beginning : Text) : List Proposal :=
  ((scope.symbols.map ofSymbol).filter fun proposal => beginning.isPrefixOf proposal.label).mergeSort
    fun a b => Text.atMost a.label b.label

/-- The proposals found are those of the symbols whose names begin so. -/
theorem mem_found_iff : proposal ∈ found scope beginning ↔
    ∃ symbol ∈ scope.symbols, beginning <+: symbol.name ∧ proposal = ofSymbol symbol := by
  rw [found, List.mem_mergeSort, List.mem_filter, List.mem_map, List.isPrefixOf_iff_prefix]
  constructor
  · rintro ⟨⟨symbol, hsymbol, rfl⟩, hbegins⟩
    exact ⟨symbol, hsymbol, label_ofSymbol symbol ▸ hbegins, rfl⟩
  · rintro ⟨symbol, hsymbol, hbegins, rfl⟩
    exact ⟨⟨symbol, hsymbol, rfl⟩, (label_ofSymbol symbol).symm ▸ hbegins⟩

/-- If names are distinct, those of the proposals ascend. -/
theorem ascending_found (h : (scope.symbols.map Symbol.name).Nodup) (beginning : Text) :
    ((found scope beginning).map label).Pairwise (· < ·) := by
  have hlabels : (scope.symbols.map ofSymbol).map label = scope.symbols.map Symbol.name := by
    simp [Function.comp_def]
  refine Text.pairwise_lt_mergeSort label ?_
  exact (hlabels ▸ h).sublist (List.filter_sublist.map label)

end Proposal

namespace Session

section Histories

variable [Manifest.Decoder] {uri : Text} {result : Build}

/-! ## The last build -/

/-- The session after events, the latest first, each with the disk as it was at the time. -/
def replay : List (Disk × Event) → Session
  | [] => empty
  | (disk, event) :: earlier => ((replay earlier).handle disk event).1

/-- The build of the latest text of a document that could be built, since it was closed last. -/
def lastBuild? (uri : Text) : List (Disk × Event) → Option Build
  | [] => none
  | (disk, event) :: earlier =>
    if event.uri = uri then
      if event.closes then none else (event.text?.bind (built? disk uri)).or (lastBuild? uri earlier)
    else lastBuild? uri earlier

/-- The build kept for a document is its last one. -/
theorem lookup_builds_replay (uri : Text) (history : List (Disk × Event)) :
    (replay history).builds.lookup uri = lastBuild? uri history := by
  induction history with
  | nil => rfl
  | cons entry earlier ih =>
    obtain ⟨disk, event⟩ := entry
    rw [replay, lastBuild?]
    by_cases hown : event.uri = uri
    · subst hown
      rw [if_pos rfl]
      by_cases hcloses : event.closes = true
      · rw [if_pos hcloses]
        exact congrArg Prod.snd (kept_handle_of_closes hcloses)
      · have hopen : event.closes = false := Bool.not_eq_true _ ▸ hcloses
        rw [if_neg hcloses, ← ih]
        refine (congrArg Prod.snd (kept_handle_of_own hopen)).trans ?_
        cases event.text? <;> rfl
    · rw [if_neg hown, ← ih]
      exact congrArg Prod.snd (kept_handle_of_ne hown)

/-- The last build of a document is a build of one of its texts. -/
theorem exists_build_of_lastBuild? {history : List (Disk × Event)}
    (h : lastBuild? uri history = some result) :
    ∃ disk text, build disk (Uri.path uri) text = .ok result := by
  induction history with
  | nil => cases h
  | cons entry earlier ih =>
    obtain ⟨disk, event⟩ := entry
    rw [lastBuild?] at h
    split at h
    case isFalse => exact ih h
    case isTrue =>
      split at h
      case isTrue => cases h
      case isFalse =>
        rcases Option.or_eq_some_iff.mp h with hnow | ⟨_, hbefore⟩
        · obtain ⟨text, _, hbuilt⟩ := Option.bind_eq_some_iff.mp hnow
          exact ⟨disk, text, eq_ok_of_toOption hbuilt⟩
        · exact ih hbefore

/-! ## Symbols in sight -/

/-- The symbols in sight with a last build, or without one. -/
def InSight (last : Option Build) (symbol : Symbol) : Prop :=
  match last with
  | some result => result.Publishes symbol
  | none => ∃ f ∈ Function.builtins, symbol = .func f

/-- The scope that proposals are taken from holds the symbols in sight under distinct names. -/
theorem scope_of_lastBuild? (uri : Text) (history : List (Disk × Event)) :
    ((((lastBuild? uri history).map Build.scope).getD .initial).symbols.map Symbol.name).Nodup ∧
      ∀ symbol, symbol ∈ (((lastBuild? uri history).map Build.scope).getD .initial).symbols ↔
        InSight (lastBuild? uri history) symbol := by
  cases hlast : lastBuild? uri history with
  | none =>
    refine ⟨Expansion.distinct_initial [] [], fun symbol => ?_⟩
    rw [Option.map_none, Option.getD_none, Scope.initial, List.mem_map, InSight]
    simp only [eq_comm]
  | some result =>
    obtain ⟨disk, text, hbuild⟩ := exists_build_of_lastBuild? hlast
    exact ⟨Build.nodup_names hbuild, fun symbol => Build.mem_scope_iff hbuild⟩

/-- Whatever has happened in a session, the proposals for the beginning of a word of a document are
the first hundred of a list, in strictly ascending order of names, of the symbols in sight whose
names begin so: those that the last build of the document publishes, or the built-in functions if it
was never built since it was closed last. -/
theorem completions_list_published (history : List (Disk × Event)) (uri beginning : Text)
    {document : Document} (h : (replay history).find? uri = some document) :
    ∃ found : List Proposal, document.complete beginning = found.take 100 ∧
      (found.map Proposal.label).Pairwise (· < ·) ∧
        ∀ proposal, proposal ∈ found ↔ ∃ symbol, InSight (lastBuild? uri history) symbol ∧
          beginning <+: symbol.name ∧ proposal = Proposal.ofSymbol symbol := by
  obtain ⟨text, _, hdocument⟩ := Option.bind_eq_some_iff.mp h
  have hbuild : document.build = lastBuild? uri history := by
    rw [← Option.some.inj hdocument, ← lookup_builds_replay uri history]
  obtain ⟨hnames, hsight⟩ := scope_of_lastBuild? uri history
  refine ⟨Proposal.found (document.scope?.getD .initial) beginning, rfl, ?_, fun proposal => ?_⟩
  · rw [Document.scope?, hbuild]
    exact Proposal.ascending_found hnames beginning
  · rw [Proposal.mem_found_iff, Document.scope?, hbuild]
    simp only [hsight]

end Histories

/-- A document whose template, when it is called, defines one for the scope around the call, another
for itself, and reserves a cell for itself. -/
def helping : Text :=
  Text.ofString "macro local helper\n    reg inset\n    macro parent insert int n\n        __plus n\n" ++
    "    macro local inside\n        __minus 1\nhelper\n"

/-- The document is opened, and then changed so that it cannot be built. -/
def editing : List (Disk × Event) :=
  [(⟨[], []⟩, .changed "file:///main.br" [.whole "nowhere\n"]),
    (⟨[], []⟩, .opened "file:///main.br" helping)]

/-- The proposal of the template for the scope around the call. -/
def insertion : Proposal := ⟨"insert", .function, "macro insert(n int)"⟩

/-- The template for the scope around the call is still proposed, and nothing that the call has
defined for itself. -/
theorem completions_list_published_editing :
    ∃ document, (replay editing).find? "file:///main.br" = some document ∧ document.text = "nowhere\n" ∧
      document.complete "ins" = [insertion] ∧
      (∃ symbol, InSight (lastBuild? "file:///main.br" editing) symbol ∧
        Proposal.ofSymbol symbol = insertion) ∧
      ∀ symbol, InSight (lastBuild? "file:///main.br" editing) symbol →
        Text.ofString "ins" <+: symbol.name → Proposal.ofSymbol symbol = insertion := by
  have hshown : ((replay editing).find? "file:///main.br").map (fun document =>
      (document.text, document.complete "ins")) = some (Text.ofString "nowhere\n", [insertion]) := by
    decide +kernel
  obtain ⟨document, hfound, hparts⟩ := Option.map_eq_some_iff.mp hshown
  obtain ⟨htext, hlist⟩ := Prod.mk.inj hparts
  obtain ⟨found, hcut, _, hmem⟩ := completions_list_published editing "file:///main.br" "ins" hfound
  have hall : found = [insertion] := by
    have hlength := congrArg List.length (hcut.symm.trans hlist)
    rw [List.length_take, List.length_singleton] at hlength
    rw [← hlist, hcut, List.take_of_length_le (by omega)]
  rw [hall] at hmem
  -- What the last build is no longer matters, and nothing should evaluate it.
  generalize lastBuild? "file:///main.br" editing = last at hmem ⊢
  refine ⟨document, hfound, htext, hlist, ?_, fun symbol hsight hbegins => ?_⟩
  · obtain ⟨symbol, hsight, _, hproposal⟩ := (hmem insertion).mp (List.mem_singleton_self insertion)
    exact ⟨symbol, hsight, hproposal.symm⟩
  · exact List.mem_singleton.mp ((hmem (Proposal.ofSymbol symbol)).mpr ⟨symbol, hsight, hbegins, rfl⟩)

end Session

end Tapestry
