import Tapestry.Proofs.DefinitionPlaces

/-!
# Where functions are called

The references to a function of the root scope are the places of the expressions that call it, each
once, in the order in which an expansion first comes to them. An expression calls the function if it
has its name and no scope nested in the root scope has a function of the name where the expression is
visited. A place tells the expression: the unit it names has the name of the function there, and it
has no other statement on the line.

Words are told apart by the parse they come from, and places by the unit and the line. They come to
the same, since a unit is read once and its expressions keep the number of that parse, whatever
templates, blocks and units they go through.
-/

namespace Tapestry

/-! ## Members shown once -/

section Shown

variable {α β : Type} {p : α → Bool} {f : α → β} {l : List α} {i : Nat} {b : β}

/-- The member of a list at an index is picked, and is shown as something. -/
def ShownAt (p : α → Bool) (f : α → β) (l : List α) (i : Nat) (b : β) : Prop :=
  ∃ a, l[i]? = some a ∧ p a = true ∧ f a = b

/-- What is shown at an index is in the list. -/
theorem ShownAt.lt_length (h : ShownAt p f l i b) : i < l.length := by
  obtain ⟨a, ha, _⟩ := h
  exact (List.getElem?_eq_some_iff.mp ha).1

/-- What is shown stays when more follows. -/
theorem ShownAt.append (h : ShownAt p f l i b) (more : List α) : ShownAt p f (l ++ more) i b := by
  have hi := h.lt_length
  obtain ⟨a, ha, hpicked⟩ := h
  exact ⟨a, by rw [List.getElem?_append_left hi, ha], hpicked⟩

/-- What is shown was shown before, or is the last member. -/
theorem shownAt_concat {a : α} (h : ShownAt p f (l ++ [a]) i b) :
    ShownAt p f l i b ∨ i = l.length ∧ p a = true ∧ f a = b := by
  have hi := h.lt_length
  rw [List.length_append, List.length_singleton] at hi
  obtain ⟨found, hfound, hpicked⟩ := h
  by_cases hlt : i < l.length
  · rw [List.getElem?_append_left hlt] at hfound
    exact .inl ⟨found, hfound, hpicked⟩
  · obtain rfl : i = l.length := by omega
    rw [List.getElem?_concat_length] at hfound
    cases hfound
    exact .inr ⟨rfl, hpicked⟩

/-- What is shown of a list is shown at some index. -/
theorem mem_map_filter_iff : b ∈ (l.filter p).map f ↔ ∃ i, ShownAt p f l i b := by
  constructor
  · intro h
    obtain ⟨a, ha, hb⟩ := List.mem_map.mp h
    obtain ⟨hmem, hpicked⟩ := List.mem_filter.mp ha
    obtain ⟨i, hi⟩ := List.mem_iff_getElem?.mp hmem
    exact ⟨i, a, hi, hpicked, hb⟩
  · rintro ⟨i, a, hi, hpicked, hb⟩
    exact List.mem_map.mpr ⟨a, List.mem_filter.mpr ⟨List.mem_of_getElem? hi, hpicked⟩, hb⟩

/-- What picked members are shown as, each once, stands in the order of first showings. -/
theorem pairwise_eraseDups_map_filter [BEq β] [LawfulBEq β] (p : α → Bool) (f : α → β) (l : List α) :
    ((l.filter p).map f).eraseDups.Pairwise fun a b =>
      ∃ i, ShownAt p f l i a ∧ ∀ j, ShownAt p f l j b → i < j := by
  -- The last member is shown behind all others, or it is shown already.
  induction l using List.reverseRecOn with
  | nil => exact List.Pairwise.nil
  | append_singleton l last ih =>
    have hstill {a b : β} (h : ∃ i, ShownAt p f l i a ∧ ∀ j, ShownAt p f l j b → i < j) :
        ∃ i, ShownAt p f (l ++ [last]) i a ∧ ∀ j, ShownAt p f (l ++ [last]) j b → i < j := by
      obtain ⟨i, hi, hfirst⟩ := h
      refine ⟨i, hi.append [last], fun j hj => ?_⟩
      rcases shownAt_concat hj with hold | ⟨rfl, _⟩
      · exact hfirst j hold
      · exact hi.lt_length
    rw [List.filter_append, List.map_append, List.eraseDups_append]
    cases hpicked : p last with
    | false =>
      rw [List.filter_cons_of_neg (by simp [hpicked])]
      exact (List.append_nil _).symm ▸ ih.imp hstill
    | true =>
      rw [List.filter_cons_of_pos hpicked, List.filter_nil, List.map_singleton, List.removeAll]
      by_cases hshown : f last ∈ (l.filter p).map f
      · have helem : ((l.filter p).map f).elem (f last) = true := List.elem_eq_true_of_mem hshown
        rw [List.filter_cons_of_neg (by simp only [helem]; decide)]
        exact (List.append_nil _).symm ▸ ih.imp hstill
      · rw [List.filter_cons_of_pos (by simpa using hshown)]
        refine List.pairwise_append.mpr ⟨ih.imp hstill, List.pairwise_singleton _ _, ?_⟩
        intro a ha b hb
        obtain rfl : b = f last := by simpa using hb
        obtain ⟨i, hi⟩ := mem_map_filter_iff.mp (List.mem_eraseDups.mp ha)
        refine ⟨i, hi.append [last], fun j hj => ?_⟩
        rcases shownAt_concat hj with hold | ⟨rfl, _⟩
        · exact absurd (mem_map_filter_iff.mpr ⟨j, hold⟩) hshown
        · exact hi.lt_length

end Shown

/-! ## Calls of the functions of the root scope -/

/-- An environment in which a name leads to a function of the root scope, past scopes that have no
function of the name. -/
inductive Env.SeesRoot (name : Text) (f : Function) : Env → Prop where
  | root {scope} (found : scope.func? name = some f) : SeesRoot name f (.root scope)
  | nested {scope env} (unshadowed : scope.func? name = none) (outside : SeesRoot name f env) :
    SeesRoot name f (.nested scope env)

namespace Env

variable {name : Text} {f : Function} {env : Env}

/-- A name that leads to the root scope leads there in the root scope itself. -/
theorem SeesRoot.func?_rootScope (h : env.SeesRoot name f) : env.rootScope.func? name = some f := by
  induction h with
  | root found => exact found
  | nested _ _ ih => exact ih

/-- A function comes from the root scope if and only if it is the one seen there. -/
theorem seesRoot_iff : env.SeesRoot name f ↔ env.home name = 0 ∧ env.func? name = some f := by
  constructor
  · intro h
    induction h with
    | root found => exact ⟨rfl, by simp [func?, scopes, found]⟩
    | nested unshadowed _ ih =>
      refine ⟨by simp [home, unshadowed, ih.1], ?_⟩
      rw [func?, scopes, List.findSome?_cons, unshadowed]
      exact ih.2
  · rintro ⟨hhome, hfound⟩
    induction env with
    | root scope =>
      refine .root ?_
      simpa [func?, scopes] using hfound
    | nested scope env ih =>
      cases hscope : scope.func? name with
      | some g => simp [home, hscope] at hhome
      | none =>
        rw [func?, scopes, List.findSome?_cons, hscope] at hfound
        exact .nested hscope (ih (by simpa [home, hscope] using hhome) hfound)

/-- A word that leads to a function leads to it by its text. -/
theorem func?_of_resolveFunction {token : Token} (h : env.resolveFunction token = .ok f) :
    env.func? token.text = some f := by
  unfold resolveFunction at h
  split at h
  case h_1 g hfound => rw [hfound, Except.ok.inj h]
  case h_2 => cases h

end Env

/-- A function that is found is found when symbols were added behind. -/
theorem Scope.func?_of_prefix {scope whole : Scope} {name : Text} {f : Function}
    (h : scope.symbols <+: whole.symbols) (hfound : scope.func? name = some f) :
    whole.func? name = some f := by
  obtain ⟨symbol, hsymbol, hfunc⟩ := Option.bind_eq_some_iff.mp hfound
  rw [func?, find?_of_prefix h hsymbol]
  exact hfunc

namespace Expansion

/-- A step that does not fail splices in a block, or calls a function and records it with its home. -/
theorem Acts.function_of_go_on {loader : Loader} {state : State} {visit : Visit} {outcome : Step}
    (h : Acts loader state visit outcome) (hgo : ∀ record fault, outcome ≠ .fail record fault) :
    (∃ head owner, visit.node = .splice head owner ∧ outcome.record.function = visit.function) ∨
      ∃ f bindings, Calls state.env visit.node f bindings ∧ outcome.record.function = some f ∧
        outcome.record.home = state.env.home visit.node.callee.text := by
  cases h with
  | fail => exact absurd rfl (hgo _ _)
  | splice spliced => exact .inl ⟨_, _, spliced, rfl⟩
  | idle call | emit call | register call | define call | included call | unit call | template call
  | blockTemplate call => exact .inr ⟨_, _, call, rfl, rfl⟩

/-- The visit at an index of the tree of an expansion calls a function of the root scope: it is made
at a point the expansion has reached, where its first word leads to the function. -/
inductive CallsAt (setup : Setup) (name : Text) (body : List Node) (visits : List Visit) (f : Function)
    (i : Nat) : Text → Token → Prop where
  | mk {levels trail file node rest state record}
      (reached : Reached setup name body ⟨levels, trail, file, node :: rest, state⟩)
      (visited : visits[i]? = some record)
      (made : Frame.Makes setup (run setup name body) ⟨levels, trail, file, node :: rest, state⟩
        (visits.take i) record (visits.drop (i + 1)))
      (unspliced : ∀ head owner, node ≠ .splice head owner)
      (seen : state.env.SeesRoot node.callee.text f) :
    CallsAt setup name body visits f i file node.callee

variable {setup : Setup} {name file word : Text} {body rest : List Node} {levels i : Nat}
  {trail earlier later : List Visit} {node : Node} {state last : State} {record : Visit}
  {f : Function} {token : Token}

/-- In an expansion that comes to its end, every visit splices in a block, or calls a function. -/
theorem Frame.Makes.function_of_ready
    (h : Frame.Makes setup (.ready last) ⟨levels, trail, file, node :: rest, state⟩ earlier record later) :
    record.node = node ∧ record.file = file ∧
      ((∃ head owner, node = .splice head owner) ∧ record.function = none ∨
        ∃ f bindings, Calls state.env node f bindings ∧ record.function = some f ∧
          record.home = state.env.home node.callee.text) := by
  obtain ⟨hnode, hfile⟩ := Prod.mk.inj h.records.place.1
  refine ⟨hnode, hfile, ?_⟩
  cases h.records with
  | tooDeep =>
    obtain ⟨_, stopped, error, hstopped⟩ := h.below_of_tooDeep
    cases hstopped
  | step =>
    rcases (acts_of_stepAt rfl).function_of_go_on h.stepAt_ne_fail with ⟨head, owner, hspliced, hrecord⟩ | hcalls
    · exact .inl ⟨⟨head, owner, hspliced⟩, hrecord⟩
    · exact .inr hcalls

/-- A visit that counts as a call of the function of a name calls it. -/
theorem callsAt_of_calls (hrun : run setup name body = .ready last)
    (hf : last.env.rootScope.func? word = some f) (hrecord : last.visits.reverse[i]? = some record)
    (hcalls : Document.calls word record = true) :
    CallsAt setup name body last.visits.reverse f i record.file record.node.callee := by
  have hvisits : (run setup name body).visits = last.visits.reverse := by rw [hrun]; rfl
  have hsplit := Visit.eq_append_of_getElem? hrecord
  obtain ⟨hhome, hnamed⟩ : record.home = 0 ∧ record.function.any (·.name == word) = true := by
    simpa [Document.calls] using hcalls
  obtain ⟨called, hcalled, _⟩ := (Option.any_eq_true _ _).mp hnamed
  obtain ⟨frame, hreached, hmakes⟩ := exists_reached_of_function (hvisits.trans hsplit) hcalled
  obtain ⟨levels, trail, file, nodes, state⟩ := frame
  cases nodes with
  | nil => cases hmakes.records
  | cons node rest =>
    have hready := hmakes
    rw [hrun] at hready
    obtain ⟨rfl, rfl, hspliced | ⟨g, bindings, hcall, hfunction, hrecorded⟩⟩ := hready.function_of_ready
    · rw [hspliced.2] at hnamed
      cases hnamed
    · rw [hfunction, Option.any_some, beq_iff_eq] at hnamed
      have hfound := Env.func?_of_resolveFunction hcall.resolved
      have hseen := Env.seesRoot_iff.mpr ⟨hrecorded.symm.trans hhome, hfound⟩
      have hword : record.node.callee.text = word :=
        (Env.mem_of_resolveFunction hcall.resolved).2.symm.trans hnamed
      -- The function seen there is still the one at the end.
      have hend := Scope.func?_of_prefix (rootSymbols_prefix_of_reached hrun hreached) hseen.func?_rootScope
      rw [hword, hf] at hend
      cases hend
      exact .mk hreached hrecord hmakes hcall.unspliced hseen

/-- A visit that calls a function counts as a call of it. -/
theorem CallsAt.calls (hrun : run setup name body = .ready last)
    (h : CallsAt setup name body last.visits.reverse f i file token) :
    ∃ record, last.visits.reverse[i]? = some record ∧ Document.calls f.name record = true ∧
      record.file = file ∧ record.node.callee = token := by
  cases h with
  | mk reached visited made unspliced seen =>
    rw [hrun] at made
    obtain ⟨rfl, rfl, ⟨⟨head, owner, hspliced⟩, _⟩ | ⟨g, bindings, hcall, hfunction, hrecorded⟩⟩ :=
      made.function_of_ready
    · exact absurd hspliced (unspliced head owner)
    · obtain ⟨hhome, hfound⟩ := Env.seesRoot_iff.mp seen
      obtain rfl : f = g := Option.some.inj (hfound.symm.trans (Env.func?_of_resolveFunction hcall.resolved))
      refine ⟨_, visited, ?_, rfl, rfl⟩
      simp [Document.calls, hrecorded, hhome, hfunction]

end Expansion

/-! ## References -/

/-- The place of the expression that a visit is about. -/
def Visit.place (visit : Visit) : Reference := ⟨Uri.ofPath visit.file, visit.node.callee.span⟩

/-- Visits are shown at their places, each place once, if words are told apart as places are. -/
theorem Document.map_place_firstVisits {visits : List Visit} (seen : List (Nat × Token))
    (h : ∀ a ∈ visits, ∀ b ∈ visits, headWord a = headWord b ↔ a.place = b.place) :
    (firstVisits seen visits).map Visit.place =
      ((visits.filter fun visit => decide (headWord visit ∉ seen)).map Visit.place).eraseDups := by
  induction visits generalizing seen with
  | nil => rfl
  | cons visit rest ih =>
    have hrest := fun a ha b hb => h a (List.mem_cons_of_mem visit ha) b (List.mem_cons_of_mem visit hb)
    rw [firstVisits]
    split
    case isTrue hseen => rw [List.filter_cons_of_neg (by simpa using hseen), ih seen hrest]
    case isFalse hnew =>
      rw [List.map_cons, ih _ hrest, List.filter_cons_of_pos (by simpa using hnew), List.map_cons,
        List.eraseDups_cons, List.filter_map, List.filter_filter]
      refine congrArg (fun others : List Visit => visit.place :: (others.map Visit.place).eraseDups) ?_
      refine List.filter_congr fun other hother => ?_
      have hsame := h other (List.mem_cons_of_mem visit hother) visit List.mem_cons_self
      by_cases hword : headWord other = headWord visit
      · simp [hword, hsame.mp hword]
      · simp [hword, mt hsame.mpr hword]

namespace Session

section References

variable [Manifest.Decoder] {disk : Disk} {uri text file : Text} {body : List Node} {result : Build}
  {f : Function} {i : Nat} {token : Token} {last : Expansion.State} {visits : List Visit}

/-- A place of an expression that calls a function of the root scope, at the visit at an index of the
tree of a document. -/
def CalledAt (disk : Disk) (uri : Text) (body : List Node) (result : Build) (f : Function) (i : Nat)
    (place : Reference) : Prop :=
  ∃ file token, Expansion.CallsAt (setup disk uri) (Uri.path uri) body result.visits f i file token ∧
    place = ⟨Uri.ofPath file, token.span⟩

/-- Visits that count as calls of the function of a name are those that call it. -/
theorem calledAt_iff {word : Text} {place : Reference}
    (hrun : Expansion.run (setup disk uri) (Uri.path uri) body = .ready last)
    (hf : last.env.rootScope.func? word = some f) :
    CalledAt disk uri body ⟨last.visits.reverse, last.files, last.env.rootScope⟩ f i place ↔
      ShownAt (Document.calls word) Visit.place last.visits.reverse i place := by
  constructor
  · rintro ⟨file, token, hcalls, rfl⟩
    obtain ⟨record, hrecord, hcounts, rfl, rfl⟩ := hcalls.calls hrun
    rw [(Scope.mem_of_func? hf).2] at hcounts
    exact ⟨record, hrecord, hcounts, rfl⟩
  · rintro ⟨record, hrecord, hcounts, rfl⟩
    exact ⟨_, _, Expansion.callsAt_of_calls hrun hf hrecord hcounts, rfl⟩

/-- An expression that calls a function is headed by its name, in the text of its unit. -/
theorem exists_standsIn_of_callsAt (hdisk : disk.Rooted) (hparse : Source.parse text = .ok body)
    (h : Expansion.CallsAt (setup disk uri) (Uri.path uri) body visits f i file token) :
    ∃ contents, ∃ statement : Statement, textOf disk uri text file = some contents ∧
      statement.StandsIn contents ∧ statement.head = token ∧ token.text = f.name := by
  cases h with
  | mk reached visited made unspliced seen =>
    obtain ⟨contents, hread, hstands⟩ := (Expansion.writtenAt_of_reached (hdisk.readsFrom _) hparse
      reached _ List.mem_cons_self).exists_standsIn
    exact ⟨contents, _, hread, hstands _ (Node.head_mem_statements _), rfl,
      (Scope.mem_of_func? seen.func?_rootScope).2.symm⟩

/-- Two calls at the same place are calls by the same word of the same unit. -/
theorem eq_of_callsAt (hdisk : disk.Rooted) (hparse : Source.parse text = .ok body) {j : Nat}
    {other : Text} {again : Token}
    (h : Expansion.CallsAt (setup disk uri) (Uri.path uri) body visits f i file token)
    (hagain : Expansion.CallsAt (setup disk uri) (Uri.path uri) body visits f j other again)
    (huri : Uri.ofPath file = Uri.ofPath other) (hspan : token.span = again.span) :
    file = other ∧ token = again := by
  obtain ⟨contents, statement, hread, hstands, rfl, _⟩ := exists_standsIn_of_callsAt hdisk hparse h
  obtain ⟨found, second, hfound, hsecond, rfl, _⟩ := exists_standsIn_of_callsAt hdisk hparse hagain
  have hfile : file = other := by
    rw [← Uri.path_ofPath_of_unitText hread, huri, Uri.path_ofPath_of_unitText hfound]
  subst hfile
  obtain rfl : contents = found := Option.some.inj (hread.symm.trans hfound)
  -- One line has one statement, and lines are counted from 1.
  have hline : statement.line = second.line := by
    have hlines := congrArg Span.line hspan
    have hfirst := (hstands.line_of_mem List.mem_cons_self).1
    have hnext := (hsecond.line_of_mem List.mem_cons_self).1
    have hpos := hstands.line_pos
    have hpos' := hsecond.line_pos
    simp only [Token.span] at hlines
    omega
  exact ⟨rfl, by rw [hstands.unique hsecond hline]⟩

/-- In an expansion that comes to its end, calls of a function are headed by one word if and only if
they are shown at one place. -/
theorem headWord_eq_iff (hdisk : disk.Rooted) (hparse : Source.parse text = .ok body) {word : Text}
    {record again : Visit} {j : Nat}
    (hrun : Expansion.run (setup disk uri) (Uri.path uri) body = .ready last)
    (hf : last.env.rootScope.func? word = some f) (hrecord : last.visits.reverse[i]? = some record)
    (hcalls : Document.calls word record = true) (hagain : last.visits.reverse[j]? = some again)
    (hcallsAgain : Document.calls word again = true) :
    Document.headWord record = Document.headWord again ↔ record.place = again.place := by
  have hend := Expansion.reached_end hrun
  have hfiles {visit : Visit} {i : Nat} (hvisit : last.visits.reverse[i]? = some visit) :
      last.files[visit.parse]? = some visit.file :=
    Expansion.files_of_parse (hdisk.readsFrom _) hparse hend visit
      (List.mem_reverse.mp (List.mem_of_getElem? hvisit))
  constructor
  · intro hword
    obtain ⟨hnumber, hcallee⟩ := Prod.mk.inj hword
    have hfile : record.file = again.file :=
      Option.some.inj ((hfiles hrecord).symm.trans (hnumber ▸ hfiles hagain))
    rw [Visit.place, Visit.place, hfile, hcallee]
  · intro hplace
    obtain ⟨huri, hspan⟩ := Reference.mk.inj hplace
    obtain ⟨hfile, hcallee⟩ := eq_of_callsAt hdisk hparse
      (Expansion.callsAt_of_calls hrun hf hrecord hcalls)
      (Expansion.callsAt_of_calls hrun hf hagain hcallsAgain) huri hspan
    -- The unit was read once, so it has one number.
    have hnodup := (Expansion.keepsUnits_of_reached hend).files_nodup
    have hbound := (List.getElem?_eq_some_iff.mp (hfiles hrecord)).1
    have hnumber : record.parse = again.parse :=
      (List.getElem?_inj hbound hnodup).mp ((hfiles hrecord).trans (hfile ▸ (hfiles hagain).symm))
    rw [Document.headWord, Document.headWord, hnumber, hcallee]

/-- The references to a function of the root scope are the places of the expressions that call it,
each once, in the order of their first visits in the tree. The unit that a place names has the word
there, and no two words are shown at one place: neither words of different places in a unit, nor words
of different parses. -/
theorem references_list_calls (session : Session) (disk : Disk) (uri text word : Text)
    {result : Build} {f : Function} (hdisk : disk.Rooted)
    (hbuild : build disk (Uri.path uri) text = .ok result) (hf : result.scope.func? word = some f) :
    ∃ document body, (session.update disk uri text).1.find? uri = some document ∧
      Source.parse text = .ok body ∧
      (document.references word).Nodup ∧
      (∀ place, place ∈ document.references word ↔ ∃ i, CalledAt disk uri body result f i place) ∧
      (document.references word).Pairwise (fun a b => ∃ i, CalledAt disk uri body result f i a ∧
        ∀ j, CalledAt disk uri body result f j b → i < j) ∧
      (∀ i place, CalledAt disk uri body result f i place →
        ∃ contents, textOf disk uri text (Uri.path place.uri) = some contents ∧
          place.span.excerpt? contents = some word) ∧
      (∀ i j file other token again,
        Expansion.CallsAt (setup disk uri) (Uri.path uri) body result.visits f i file token →
        Expansion.CallsAt (setup disk uri) (Uri.path uri) body result.visits f j other again →
          Uri.ofPath file = Uri.ofPath other → token.span = again.span → file = other ∧ token = again) ∧
      ∀ (i j : Nat) record again, result.visits[i]? = some record → Document.calls word record = true →
        result.visits[j]? = some again → Document.calls word again = true →
          (Document.headWord record = Document.headWord again ↔ record.place = again.place) := by
  obtain ⟨body, last, hparse, hrun, rfl⟩ := Expansion.Setup.exists_ready_of_build hbuild
  have hwords (i j : Nat) (record again : Visit) (hrecord : last.visits.reverse[i]? = some record)
      (hcalls : Document.calls word record = true) (hagain : last.visits.reverse[j]? = some again)
      (hcallsAgain : Document.calls word again = true) :=
    headWord_eq_iff hdisk hparse hrun hf hrecord hcalls hagain hcallsAgain
  have hreferences : Document.references ⟨text, some ⟨last.visits.reverse, last.files, last.env.rootScope⟩⟩
      word = ((last.visits.reverse.filter (Document.calls word)).map Visit.place).eraseDups := by
    refine (Document.map_place_firstVisits [] fun a ha b hb => ?_).trans (by simp)
    obtain ⟨hmem, hcalls⟩ := List.mem_filter.mp ha
    obtain ⟨hmem', hcalls'⟩ := List.mem_filter.mp hb
    obtain ⟨i, hi⟩ := List.mem_iff_getElem?.mp hmem
    obtain ⟨j, hj⟩ := List.mem_iff_getElem?.mp hmem'
    exact hwords i j a b hi hcalls hj hcalls'
  have hordered := pairwise_eraseDups_map_filter (Document.calls word) Visit.place last.visits.reverse
  simp only [← calledAt_iff hrun hf] at hordered
  refine ⟨_, body, find?_update hbuild, hparse, ?_, ?_, hreferences ▸ hordered, ?_, ?_, hwords⟩
  · rw [hreferences]
    refine hordered.imp ?_
    rintro a b ⟨i, hcalled, hfirst⟩ rfl
    exact Nat.lt_irrefl i (hfirst i hcalled)
  · intro place
    simp only [calledAt_iff hrun hf]
    rw [hreferences, List.mem_eraseDups, mem_map_filter_iff]
  · rintro i place ⟨file, token, hcalls, rfl⟩
    obtain ⟨contents, statement, hread, hstands, rfl, htext⟩ := exists_standsIn_of_callsAt hdisk hparse hcalls
    refine ⟨contents, by rw [Uri.path_ofPath_of_unitText hread, hread], ?_⟩
    rw [hstands.excerpt?_of_mem List.mem_cons_self, htext, (Scope.mem_of_func? hf).2]
  · intro i j file other token again hcalls hagain huri hspan
    exact eq_of_callsAt hdisk hparse hcalls hagain huri hspan

end References

/-- A disk with a unit whose template calls a function before and after it defines another of that
name for itself. -/
def shadowed : Disk :=
  ⟨[(["tools.br"], .file (Text.ofString "macro global outer int n\n    w n\n" ++
    "    macro local w int m\n        __minus m\n    w n\n"))], []⟩

/-- A document that defines the function, and calls the template twice. -/
def calling : Text :=
  Text.ofString "macro global w int n\n    __plus n\nimport 'tools.br'\nouter 1\nw 3\nouter 2\n"

/-- The call in the template is listed once and before the call in the document, and the call behind
the definition in the template is not. -/
theorem references_list_calls_shadowed :
    ∃ result document body f, build shadowed (Uri.path "file:///main.br") calling = .ok result ∧
      result.scope.func? "w" = some f ∧
      (empty.update shadowed "file:///main.br" calling).1.find? "file:///main.br" = some document ∧
      document.references "w" = [⟨"file:///tools.br", ⟨1, 4, 5⟩⟩, ⟨"file:///main.br", ⟨4, 0, 1⟩⟩] ∧
      (∃ i, CalledAt shadowed "file:///main.br" body result f i ⟨"file:///tools.br", ⟨1, 4, 5⟩⟩ ∧
        ∀ j, CalledAt shadowed "file:///main.br" body result f j ⟨"file:///main.br", ⟨4, 0, 1⟩⟩ → i < j) ∧
      ∀ i, ¬ CalledAt shadowed "file:///main.br" body result f i ⟨"file:///tools.br", ⟨4, 4, 5⟩⟩ := by
  have hshown : (build shadowed (Uri.path "file:///main.br") calling).toOption.map (fun result =>
      ((result.scope.func? "w").isSome, Document.references ⟨calling, some result⟩ "w")) =
        some (true, [⟨"file:///tools.br", ⟨1, 4, 5⟩⟩, ⟨"file:///main.br", ⟨4, 0, 1⟩⟩]) := by decide +kernel
  have hrooted : shadowed.Rooted := Disk.rooted_of_entries (by decide +kernel) (by decide +kernel)
  obtain ⟨result, hresult, hparts⟩ := Option.map_eq_some_iff.mp hshown
  obtain ⟨hsome, hlist⟩ := Prod.mk.inj hparts
  obtain ⟨f, hf⟩ := Option.isSome_iff_exists.mp hsome
  have hbuild := eq_ok_of_toOption hresult
  obtain ⟨document, body, hdocument, _, _, hmem, hordered, _⟩ :=
    references_list_calls empty shadowed "file:///main.br" calling "w" hrooted hbuild hf
  obtain rfl := Option.some.inj ((find?_update hbuild).symm.trans hdocument)
  rw [hlist] at hmem hordered
  refine ⟨result, _, body, f, hbuild, hf, hdocument, hlist, ?_, fun i hcalled => ?_⟩
  · exact (List.pairwise_cons.mp hordered).1 _ (List.mem_singleton_self _)
  · exact absurd ((hmem _).mpr ⟨i, hcalled⟩) (by decide)

end Session

end Tapestry
