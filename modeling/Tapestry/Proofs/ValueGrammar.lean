import Tapestry.Proofs.BindingDecision

/-!
# The words of each kind

Each kind has its words, and a word of a kind denotes one datum. Reading a word as a kind gives the
datum it denotes, and is refused exactly if it denotes none, with a fault that blames the word.

A word that is no name tells its kind by its first byte: signs and digits begin numbers, a colon
begins a cell and quotes begin strings. So only names can be words of two kinds.
-/

namespace Tapestry

namespace Kind

/-- The kind of fault that a word is which cannot be read as a kind. -/
def refusal : Kind → FaultKind
  | int => .intParse
  | identifier => .identifierName
  | address => .address
  | str => .strParse
  | typeName | unknown _ => .typeName
  | lifetime => .functionLifeTime

/-- Whatever the kind, a word that is refused could not be read as a value. -/
theorem family_refusal (kind : Kind) : kind.refusal.family = .typeParse := by
  cases kind <;> rfl

/-- The kind of a word that is no name, told by its first byte. -/
def ofLead (first : UInt8) : Kind :=
  if first = 58 then .address else if first = 34 ∨ first = 39 then .str else .int

end Kind

namespace Value

variable {fault : Fault}

/-- A name: a letter, then letters, digits and underscores. -/
def IsName (text : Text) : Prop :=
  ∃ first rest, text = first :: rest ∧ Byte.isLetter first = true ∧
    ∀ b ∈ rest, Byte.isLetter b = true ∨ Byte.isDigit b = true ∨ b = 95

/-- What a word denotes as a word of a kind. -/
inductive Denotes (text : Text) : Kind → Datum → Prop where
  /-- A numeral of a number that fits a word. -/
  | int {n} (numeral : Number.Numeral text n) (range : Number.least ≤ n ∧ n ≤ Number.greatest) :
    Denotes text .int (.int n)
  | identifier (name : IsName text) : Denotes text .identifier (.identifier text)
  /-- A colon and digits. -/
  | cell {digits} (text_eq : text = 58 :: digits) (numeral : Number.IsDigits digits)
      (range : Number.decimal digits ≤ Number.greatest) :
    Denotes text .address (.cell (Number.decimal digits))
  /-- The name of an address variable. -/
  | reference (name : IsName text) : Denotes text .address (.reference text)
  /-- Anything between two quotes of one sort. -/
  | str {quote contents} (quotes : quote = 34 ∨ quote = 39)
      (text_eq : text = quote :: (contents ++ [quote])) :
    Denotes text .str (.str contents)
  | kind {k} (known : k ∈ Kind.all) (text_eq : k.name = text) : Denotes text .typeName (.kind k)
  | lifetime {l} (known : l ∈ Lifetime.all) (text_eq : l.name = text) :
    Denotes text .lifetime (.lifetime l)

variable {kind other : Kind} {token : Token} {text : Text} {datum : Datum} {value : Value}

/-! ## What the readers accept -/

/-- A word is a name just if it is spelt as one. -/
theorem isIdentifier_iff : isIdentifier text = true ↔ IsName text := by
  cases text with
  | nil => simp [isIdentifier, IsName]
  | cons first rest => simp [isIdentifier, IsName, or_assoc]

/-- A word is a number just if it is a numeral of one that fits a word. -/
theorem readInt_eq_ok_iff {n : Int} : readInt token = .ok n ↔
    Number.Numeral token.text n ∧ Number.least ≤ n ∧ n ≤ Number.greatest := by
  rw [← Number.int?_eq_some_iff, readInt]
  cases Number.int? token.text <;> simp

/-- A word that is spelt as a name is that name. -/
theorem readIdentifier_eq_ok_iff {name : Text} :
    readIdentifier token = .ok name ↔ IsName token.text ∧ name = token.text := by
  rw [← isIdentifier_iff, readIdentifier]
  split
  case isTrue h => simp [h, eq_comm]
  case isFalse h => simp [h]

/-- A text is unwrapped just if it stands between two quotes of one kind. -/
theorem unwrap?_eq_some_iff {contents : Text} : unwrap? text = some contents ↔
    ∃ quote, (quote = 34 ∨ quote = 39) ∧ text = quote :: (contents ++ [quote]) := by
  constructor
  · intro h
    unfold unwrap? at h
    split at h
    case h_1 quote rest =>
      split at h
      case isTrue hquotes =>
        obtain ⟨hquote, hlast⟩ := Bool.and_eq_true_iff.mp hquotes
        cases h
        refine ⟨quote, by simpa [isQuote] using hquote, ?_⟩
        rw [List.dropLast_append_getLast? quote (beq_iff_eq.mp hlast)]
      case isFalse => cases h
    case h_2 => cases h
  · rintro ⟨quote, hquote, rfl⟩
    have hquotes : isQuote quote = true := by simpa [isQuote] using hquote
    simp [unwrap?, hquotes]

/-- A word is a string just if it stands between two quotes of one kind. -/
theorem readStr_eq_ok_iff {contents : Text} : readStr token = .ok contents ↔
    ∃ quote, (quote = 34 ∨ quote = 39) ∧ token.text = quote :: (contents ++ [quote]) := by
  rw [← unwrap?_eq_some_iff, readStr]
  cases unwrap? token.text <;> simp

/-- A word is a kind just if it is the name of one. -/
theorem readKind_eq_ok_iff {k : Kind} :
    readKind token = .ok k ↔ k ∈ Kind.all ∧ k.name = token.text := by
  rw [← find?_name_eq_some_iff (by decide), readKind]
  cases Kind.all.find? (·.name == token.text) <;> simp

/-- A word is a lifetime just if it is the name of one. -/
theorem readLifetime_eq_ok_iff {l : Lifetime} :
    readLifetime token = .ok l ↔ l ∈ Lifetime.all ∧ l.name = token.text := by
  rw [← find?_name_eq_some_iff (by decide), readLifetime]
  cases Lifetime.all.find? (·.name == token.text) <;> simp

/-- A word is an address just if it denotes one. -/
theorem readAddress_eq_ok_iff_denotes :
    readAddress token = .ok datum ↔ Denotes token.text .address datum := by
  rw [readAddress_eq_ok_iff, isIdentifier_iff]
  simp only [Number.ofDigits_eq_decimal, Number.fits, Bool.and_eq_true, decide_eq_true_eq]
  constructor
  · rintro (⟨digits, htext, hsome, hdigits, hrange, rfl⟩ | ⟨hname, rfl⟩)
    · exact .cell htext ⟨hsome, hdigits⟩ hrange.2
    · exact .reference hname
  · intro h
    cases h with
    | @cell digits htext numeral range =>
      have hleast : Number.least ≤ Number.decimal digits :=
        Int.le_trans (by decide) (Int.natCast_nonneg _)
      exact .inl ⟨digits, htext, numeral.ne_nil, numeral.digits, ⟨hleast, range⟩, rfl⟩
    | reference name => exact .inr ⟨name, rfl⟩

/-- Reading gives what the word denotes. -/
theorem readDatum_eq_ok_iff : readDatum kind token = .ok datum ↔ Denotes token.text kind datum := by
  constructor
  · intro h
    cases kind with
    | address => exact readAddress_eq_ok_iff_denotes.mp h
    | unknown code => cases h
    | int =>
      obtain ⟨n, hread, rfl⟩ := exists_of_map_eq_ok h
      obtain ⟨hnumeral, hrange⟩ := readInt_eq_ok_iff.mp hread
      exact .int hnumeral hrange
    | identifier =>
      obtain ⟨name, hread, rfl⟩ := exists_of_map_eq_ok h
      obtain ⟨hname, rfl⟩ := readIdentifier_eq_ok_iff.mp hread
      exact .identifier hname
    | str =>
      obtain ⟨contents, hread, rfl⟩ := exists_of_map_eq_ok h
      obtain ⟨quote, hquotes, htext⟩ := readStr_eq_ok_iff.mp hread
      exact .str hquotes htext
    | typeName =>
      obtain ⟨k, hread, rfl⟩ := exists_of_map_eq_ok h
      obtain ⟨hknown, htext⟩ := readKind_eq_ok_iff.mp hread
      exact .kind hknown htext
    | lifetime =>
      obtain ⟨l, hread, rfl⟩ := exists_of_map_eq_ok h
      obtain ⟨hknown, htext⟩ := readLifetime_eq_ok_iff.mp hread
      exact .lifetime hknown htext
  · intro h
    cases h with
    | int numeral range => rw [readDatum, readInt_eq_ok_iff.mpr ⟨numeral, range⟩]; rfl
    | identifier name => rw [readDatum, readIdentifier_eq_ok_iff.mpr ⟨name, rfl⟩]; rfl
    | cell htext numeral range => exact readAddress_eq_ok_iff_denotes.mpr (.cell htext numeral range)
    | reference name => exact readAddress_eq_ok_iff_denotes.mpr (.reference name)
    | str quotes htext => rw [readDatum, readStr_eq_ok_iff.mpr ⟨_, quotes, htext⟩]; rfl
    | kind known htext => rw [readDatum, readKind_eq_ok_iff.mpr ⟨known, htext⟩]; rfl
    | lifetime known htext => rw [readDatum, readLifetime_eq_ok_iff.mpr ⟨known, htext⟩]; rfl

/-- A word is read as a value of a kind just if it denotes that value. -/
theorem read_eq_ok_iff :
    read kind token = .ok value ↔ value.token = token ∧ Denotes token.text kind value.datum := by
  rw [← readDatum_eq_ok_iff, read]
  constructor
  · intro h
    obtain ⟨datum, hdatum, rfl⟩ := exists_of_map_eq_ok h
    exact ⟨rfl, hdatum⟩
  · rintro ⟨rfl, hdatum⟩
    rw [hdatum]
    rfl

/-- A word is bound as a name exactly if it is one, whatever variables there are. -/
theorem bind_identifier_eq_ok_iff {key : Text} {env : Env} {v : Variable} :
    Param.bind ⟨key, .identifier⟩ token env = .ok v ↔
      IsName token.text ∧ v = ⟨key, ⟨.identifier token.text, token⟩⟩ := by
  unfold Param.bind
  by_cases hname : IsName token.text
  · have hread : read .identifier token = .ok ⟨.identifier token.text, token⟩ :=
      read_eq_ok_iff.mpr ⟨rfl, .identifier hname⟩
    simp [hread, Datum.isReference, hname, eq_comm]
  · have hidentifier : ∀ name, readIdentifier token ≠ .ok name := fun name h =>
      hname (readIdentifier_eq_ok_iff.mp h).1
    have hread : ∀ value, read .identifier token ≠ .ok value := by
      rintro ⟨datum, word⟩ h
      obtain ⟨-, hdenotes⟩ := read_eq_ok_iff.mp h
      cases hdenotes with
      | identifier name => exact hname name
    cases hfirst : read .identifier token with
    | ok value => exact absurd hfirst (hread value)
    | error unread =>
      cases hsecond : readIdentifier token with
      | ok name => exact absurd hsecond (hidentifier name)
      | error noName => simp [hname]

/-! ## What the readers refuse -/

/-- A fault that refuses a word as a word of a kind. -/
structure Refuses (kind : Kind) (token : Token) (fault : Fault) : Prop where
  kind_eq : fault.kind = kind.refusal
  token_eq : fault.token = some token

/-- A word that is no address is refused as such. -/
theorem refuses_of_readAddress (h : readAddress token = .error fault) :
    Refuses .address token fault := by
  unfold readAddress at h
  split at h
  case h_1 =>
    split at h
    · cases h
    · cases h
      exact ⟨rfl, rfl⟩
  case h_2 =>
    split at h
    · cases h
    · cases h
      exact ⟨rfl, rfl⟩

/-- Whatever the kind, a word that cannot be read is refused. -/
theorem refuses_of_readDatum (h : readDatum kind token = .error fault) :
    Refuses kind token fault := by
  cases kind with
  | address => exact refuses_of_readAddress h
  | unknown code =>
    cases h
    exact ⟨rfl, rfl⟩
  | int | identifier | str | typeName | lifetime =>
    simp only [readDatum, readInt, readIdentifier, readStr, readKind, readLifetime] at h
    split at h
    · cases h
    · cases h
      exact ⟨rfl, rfl⟩

/-- A word that denotes no value of a kind is refused as the kind says. -/
theorem refuses_of_read (h : read kind token = .error fault) : Refuses kind token fault := by
  refine refuses_of_readDatum ?_
  rw [read] at h
  cases hread : readDatum kind token with
  | ok datum =>
    rw [hread] at h
    cases h
  | error other =>
    rw [hread] at h
    cases h
    rfl

/-! ## Words of two kinds -/

/-- The first byte of a numeral is a sign or a digit. -/
theorem ofLead_of_numeral {n : Int} (h : Number.Numeral text n) :
    ∃ first rest, text = first :: rest ∧ Kind.ofLead first = .int := by
  cases h with
  | plus => exact ⟨_, _, rfl, by decide⟩
  | minus => exact ⟨_, _, rfl, by decide⟩
  | unsigned hdigits =>
    obtain ⟨first, rest, rfl⟩ := List.exists_cons_of_ne_nil hdigits.ne_nil
    have hfirst := hdigits.digits first List.mem_cons_self
    have hother : first ≠ 58 ∧ ¬(first = 34 ∨ first = 39) := by
      refine ⟨?_, ?_⟩
      · rintro rfl
        cases hfirst
      · rintro (rfl | rfl) <;> cases hfirst
    exact ⟨first, rest, rfl, by rw [Kind.ofLead, if_neg hother.1, if_neg hother.2]⟩

/-- A word of a kind is a name, or its first byte tells the kind. -/
theorem Denotes.lead (h : Denotes text kind datum) :
    IsName text ∨ ∃ first rest, text = first :: rest ∧ Kind.ofLead first = kind := by
  have hkinds : Kind.all.all (fun k => isIdentifier k.name) = true := by decide
  have hlifetimes : Lifetime.all.all (fun l => isIdentifier l.name) = true := by decide
  cases h with
  | int numeral => exact .inr (ofLead_of_numeral numeral)
  | identifier name => exact .inl name
  | reference name => exact .inl name
  | cell htext => exact .inr ⟨_, _, htext, by decide⟩
  | str quotes htext => exact .inr ⟨_, _, htext, by rcases quotes with rfl | rfl <;> decide⟩
  | @kind k known htext =>
    exact .inl (htext ▸ isIdentifier_iff.mp (List.all_eq_true.mp hkinds k known))
  | @lifetime l known htext =>
    exact .inl (htext ▸ isIdentifier_iff.mp (List.all_eq_true.mp hlifetimes l known))

/-- Only a name is a word of two kinds. -/
theorem Denotes.same_kind {datum' : Datum} (h : Denotes text kind datum)
    (h' : Denotes text other datum') : kind = other ∨ IsName text := by
  rcases h.lead with hname | ⟨first, rest, htext, hkind⟩
  · exact .inr hname
  · rcases h'.lead with hname | ⟨first', rest', htext', hother⟩
    · exact .inr hname
    · obtain ⟨rfl, -⟩ := List.cons.inj (htext.symm.trans htext')
      exact .inl (hkind.symm.trans hother)

/-! ## Written values -/

/-- A number that fits a word is written as a word that denotes it. -/
theorem denotes_render_int (v : Int64) : Denotes (Datum.render (.int v.toInt)) .int (.int v.toInt) := by
  have hgreatest := v.toInt_lt
  exact .int (Number.numeral_int _) ⟨v.le_toInt, by rw [Number.greatest]; omega⟩

/-- A cell index is written as a word that denotes the cell. -/
theorem denotes_render_cell {n : Int64} (h : 0 ≤ n) :
    Denotes (Datum.render (.cell n.toInt)) .address (.cell n.toInt) := by
  have hnonneg : 0 ≤ n.toInt := Int64.le_iff_toInt_le.mp h
  have hgreatest := n.toInt_lt
  have hvalue : (Number.decimal (Number.nat n.toInt.natAbs) : Int) = n.toInt := by
    rw [Number.decimal_nat]
    omega
  have hdigits : Datum.render (.cell n.toInt) = 58 :: Number.nat n.toInt.natAbs := by
    rw [Datum.render, Number.int, if_neg (by omega)]
    rfl
  have hcell := Denotes.cell hdigits (Number.isDigits_nat _)
    (by rw [hvalue, Number.greatest]; omega)
  rwa [hvalue] at hcell

/-- Words are read by their grammar. Reading a word as a kind gives a value exactly if the word
denotes one as a word of that kind, and the value keeps the word. Every other word is refused with a
fault of the kind's own sort, which is about reading and blames the word. Only names can be words of
two kinds. Every number that fits a word and every cell index is read back from what is written for it. -/
theorem words_follow_grammar (kind : Kind) (token : Token) :
    (∀ value, read kind token = .ok value ↔
      value.token = token ∧ Denotes token.text kind value.datum) ∧
    (∀ fault, read kind token = .error fault →
      fault.kind = kind.refusal ∧ fault.kind.family = .typeParse ∧ fault.token = some token) ∧
    (∀ other datum datum', Denotes token.text kind datum → Denotes token.text other datum' →
      kind = other ∨ IsName token.text) ∧
    (∀ (value : Value) (v : Int64), value.datum = .int v.toInt →
      (read .int { token with text := value.render }).map Value.datum = .ok (.int v.toInt)) ∧
    ∀ (value : Value) (n : Int64), 0 ≤ n → value.datum = .cell n.toInt →
      (read .address { token with text := value.render }).map Value.datum = .ok (.cell n.toInt) := by
  have hread {word : Token} {kind : Kind} {datum : Datum} (h : Denotes word.text kind datum) :
      (read kind word).map Value.datum = .ok datum := by
    have hvalue : read kind word = .ok ⟨datum, word⟩ := read_eq_ok_iff.mpr ⟨rfl, h⟩
    rw [hvalue]
    rfl
  refine ⟨fun value => read_eq_ok_iff, fun fault hfault => ?_, fun _ _ _ h h' => h.same_kind h',
    fun value v hvalue => hread ?_, fun value n hn hvalue => hread ?_⟩
  · have hrefuses := refuses_of_read hfault
    exact ⟨hrefuses.kind_eq, hrefuses.kind_eq ▸ kind.family_refusal, hrefuses.token_eq⟩
  · rw [Value.render, hvalue]
    exact denotes_render_int v
  · rw [Value.render, hvalue]
    exact denotes_render_cell hn

/-- The least number of a word behind zeros, the first cell index out of range, and the last one in
range. -/
theorem words_follow_grammar_extremes :
    read .int ⟨3, 4, "-0009223372036854775808"⟩ =
      .ok ⟨.int Number.least, ⟨3, 4, "-0009223372036854775808"⟩⟩ ∧
    (∃ fault, read .address ⟨3, 4, ":9223372036854775808"⟩ = .error fault ∧
      fault.kind = .address ∧ fault.kind.family = .typeParse ∧
        fault.token = some ⟨3, 4, ":9223372036854775808"⟩) ∧
    0 ≤ Int64.maxValue ∧
    (read .address ⟨3, 4, Value.render ⟨.cell Int64.maxValue.toInt, ⟨1, 0, "x"⟩⟩⟩).map Value.datum =
      .ok (.cell Int64.maxValue.toInt) := by
  have hcell := words_follow_grammar .address ⟨3, 4, ":9223372036854775808"⟩
  have hint := words_follow_grammar .int ⟨3, 4, "-0009223372036854775808"⟩
  have hdigits : Number.IsDigits "0009223372036854775808" :=
    ⟨by decide, List.all_eq_true.mp (by decide)⟩
  refine ⟨(hint.1 _).mpr ⟨rfl, .int (.minus hdigits) (by decide)⟩, ⟨_, rfl, hcell.2.1 _ rfl⟩,
    by decide, hcell.2.2.2.2 ⟨.cell Int64.maxValue.toInt, ⟨1, 0, "x"⟩⟩ Int64.maxValue (by decide) rfl⟩

end Value

end Tapestry
