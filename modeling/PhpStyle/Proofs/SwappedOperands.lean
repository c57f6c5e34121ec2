import PhpStyle.Proofs.CastSpaces
import PhpStyle.Proofs.InsertedComments
import PhpStyle.Proofs.OperandBounds

/-!
# Comparisons with their operands swapped

A fix lets the texts of two operands change places, and the text is then read again. Where the
operands are set off from the words around them (`SetOff`), the new text has the old tokens with
those of the operands in each other's place (`operands_exchanged`). Where they are not, a word and
an operand that touch are read as one name (`word_and_operand_merged`).
-/

namespace PhpStyle

namespace Rules.Yoda

open Tokens Lexer Text

variable {source : String} {ts : Tokens} {i : Nat} {o : Operands} {k : Kind}

/-- Nothing merges with the operands when they change places. -/
@[mk_iff]
structure SetOff (ts : Tokens) (o : Operands) : Prop where
  /-- An array stands behind a bracket or a token behind which operands start. -/
  array : ts.kindIs (· == .openArray) o.leftFirst = true →
    (ts.previousEffective o.leftFirst).any
      (ts.kindIs fun k => precedesOperand k || k.isBracket) = true
  /-- A `?` before the operands is not where a nullable type may stand. -/
  ternary : ∀ p ∈ ts.previousEffective o.leftFirst, ts.kind? p = some .ternary →
    Lexer.precedesType ((ts.previousEffective p).bind ts.kind?) = false
  /-- A `return`, `and`, `or` or `xor` that touches the left operand does not go on with the right
  one, which comes to stand there, and with a string behind it it ends no first line of a heredoc. -/
  wordBefore : ts.kindIs Kind.isConjunction (o.leftFirst - 1) = true →
    ∀ c ∈ (ts.content o.rightFirst).toList.head?, (isNameChar c = false ∧ c ≠ '\\') ∧
      (isQuoteMark c = true → ∀ w ∈ (ts.contentBetween 0 (o.leftFirst - 1)).toList.tails,
        startsWith "<<<".toList w = true → '\n' ∈ w)
  /-- The left operand does not go on with such a word that touches the right one, an index. -/
  wordBehind : ts.kindIs Kind.isConjunction (o.rightLast + 1) = true →
    (ts.kindIs (· == .closeArray) o.leftLast = true ∨
      withstands (ts.content (o.rightLast + 1)).toList (ts.content o.leftLast).toList = true) ∧
    ts.kindIs (· == .closeSquare) o.rightLast = true
  /-- The right operand starts with a value, and not with a blank of another alphabet. -/
  value : ts.kindIs (fun k => k == .variableName || k == .name || k.isLiteral) o.rightFirst = true
  solid : ∀ c ∈ (ts.content o.rightFirst).toList.head?, isBlank c = false
  /-- At the end of the file a string is closed, and so is a bracket of the right operand where an
  array comes to stand behind it. -/
  sealed : ts.size ≤ o.rightLast + 1 → ts.kindIs (· == .quoted) o.rightLast = true →
    isSealed (ts.content o.rightLast).toList = true
  closed : ts.nextEffective o.rightLast = none → ts.kindIs (· == .openArray) o.leftFirst = true →
    levelAfter 0 (ts.kinds.extract o.rightFirst (o.rightLast + 1)) = some 0
  /-- A constant `ENUM` does not come to stand before a word, where it is a keyword. -/
  enum : lower (ts.contentBetween o.leftFirst o.leftLast).toList = "enum".toList →
    (ts.nextEffective o.rightLast).any (ts.kindIs Kind.isConjunction) = false

instance (ts : Tokens) (o : Operands) : Decidable (SetOff ts o) :=
  decidable_of_iff' _ (setOff_iff ts o)

/-- The operands stand on the two sides of the operator at `i`. -/
structure Around (o : Operands) (i : Nat) : Prop where
  left_le : o.leftFirst ≤ o.leftLast
  left_lt : o.leftLast < i
  lt_right : i < o.rightFirst
  right_le : o.rightFirst ≤ o.rightLast

/-- The operands in each other's place. -/
def exchanged {α : Type*} (ls : List α) (o : Operands) : List α :=
  ls.extract 0 o.leftFirst ++ (ls.extract o.rightFirst (o.rightLast + 1) ++
    (ls.extract (o.leftLast + 1) o.rightFirst ++ (ls.extract o.leftFirst (o.leftLast + 1) ++
      ls.drop (o.rightLast + 1))))

section Places

variable {ls : List (Kind × List Char)} {p n : Nat} {lead op : Kind × List Char}

/-- The operands of the operator at `i`, behind the place `p`, among the first `n` places. -/
structure Places (o : Operands) (p i n : Nat) : Prop extends Around o i where
  lead_lt : p < o.leftFirst
  last_lt : o.rightLast < n

theorem Places.touches (h : Places o p i ls.length) (hnil : ls.extract (p + 1) o.leftFirst = []) :
    p + 1 = o.leftFirst := by
  obtain ⟨⟨hlt₂, hlt₃, hlt₄, hlt₅⟩, hlt₁, hlt₆⟩ := h
  by_contra hne
  exact extract_ne_nil (by omega) (by omega) hnil

theorem Places.first_of_head (h : Places o p i ls.length)
    (hl : op ∈ (ls.extract o.rightFirst (o.rightLast + 1)).head?) : ls[o.rightFirst]? = some op := by
  have hfirst := List.getElem?_eq_getElem (Nat.lt_of_le_of_lt h.right_le h.last_lt)
  rw [extract_eq_cons hfirst (Nat.lt_succ_of_le h.right_le)] at hl
  exact hfirst.trans hl

/-- A list of lexemes as a comparison. -/
def comparisonAt (ls : List (Kind × List Char)) (o : Operands) (p i : Nat)
    (lead op : Kind × List Char) : Comparison where
  pre := ls.extract 0 p
  lead := lead
  gap := ls.extract (p + 1) o.leftFirst
  left := ls.extract o.leftFirst (o.leftLast + 1)
  before := ls.extract (o.leftLast + 1) i
  op := op
  after := ls.extract (i + 1) o.rightFirst
  right := ls.extract o.rightFirst (o.rightLast + 1)
  rest := ls.drop (o.rightLast + 1)

theorem lexemes_comparisonAt (h : Places o p i n) (hlead : ls[p]? = some lead)
    (hop : ls[i]? = some op) : (comparisonAt ls o p i lead op).lexemes = ls := by
  have hle := Nat.le_succ_of_le h.left_le
  have hle' := Nat.le_succ_of_le h.right_le
  rw [comparisonAt, Comparison.lexemes, extract_append_drop hle', extract_append_drop h.lt_right,
    ← drop_eq_cons hop, extract_append_drop h.left_lt, extract_append_drop hle,
    extract_append_drop h.lead_lt, ← drop_eq_cons hlead, extract_append_drop (Nat.zero_le p),
    List.drop_zero]

theorem swapped_comparisonAt (h : Places o p i n) (hlead : ls[p]? = some lead)
    (hop : ls[i]? = some op) :
    (comparisonAt ls o p i lead op).swapped.lexemes = exchanged ls o := by
  rw [exchanged, ← extract_append (Nat.zero_le p) h.lead_lt.le, extract_eq_cons hlead h.lead_lt,
    ← extract_append (b := i) h.left_lt h.lt_right.le, extract_eq_cons hop h.lt_right]
  simp only [Comparison.lexemes, Comparison.swapped, comparisonAt, List.append_assoc,
    List.cons_append]

end Places

theorem right_lexemes (hplain : isPlain (ofSource source) o.rightFirst o.rightLast = true)
    (hset : SetOff (ofSource source) o) (hle : o.rightFirst ≤ o.rightLast)
    (hlast : EffectiveAt (ofSource source).kinds o.rightLast) {ls : List (Kind × List Char)}
    (hls : ls = (({} : Lexer).run source.toList).extract o.rightFirst (o.rightLast + 1)) :
    (∀ l ∈ ls, isPlainKind l.1 = true) ∧
      (∃ l rest, ls = l :: rest ∧ (l.1.startsOperand = true ∧ l.1 ≠ .openArray) ∧
        ∀ c ∈ l.2.head?, isBlank c = false) ∧
      ∀ l, ls.getLast? = some l → l.1 ≠ .blank := by
  subst hls
  refine ⟨fun l hl => ?_, ?_, fun l hl => ?_⟩
  · obtain ⟨m, hfirst, hm, hl⟩ := mem_extract hl
    obtain ⟨k, hk, hkind⟩ := isPlainKind_of_isPlainAt (isPlain_iff.1 hplain m hfirst (by omega))
    rw [lexeme_of_kind hk] at hl
    rw [← Option.some.inj hl]
    exact hkind
  · obtain ⟨k, hk, hvalue⟩ := kindIs_iff.1 hset.value
    have hstarts : k.startsOperand = true ∧ k ≠ .openArray := by
      revert hvalue
      cases k <;> decide
    have hcons := extract_eq_cons (b := o.rightLast + 1) (lexeme_of_kind hk) (by omega)
    refine ⟨_, _, hcons, hstarts, ?_⟩
    dsimp only
    exact hset.solid
  · obtain ⟨k, hk, heffective⟩ := hlast
    rw [extract_succ hle (lexeme_of_kind hk), List.getLast?_concat] at hl
    rw [← Option.some.inj hl]
    rintro rfl
    cases heffective

theorem SetOff.exists_lead (hset : SetOff (ofSource source) o) (h : Compares (ofSource source) i o)
    (hk : (ofSource source).kind? i = some k) :
    ∃ p k, (ofSource source).previousEffective o.leftFirst = some p ∧
      (ofSource source).kinds[p]? = some k ∧ (precedesOperand k = true ∨ k.isBracket = true) := by
  by_cases harray : (ofSource source).kinds[o.leftFirst]? = some .openArray
  · obtain ⟨p, hp, hlead⟩ := (Option.any_eq_true _ _).1 (hset.array (kindIs_beq.2 harray))
    obtain ⟨k, hk, hlead⟩ := kindIs_iff.1 hlead
    exact ⟨p, k, hp, hk, Bool.or_eq_true_iff.1 hlead⟩
  · rw [← getElem?_kinds] at hk
    exact Yoda.exists_lead h (List.getElem?_eq_some_iff.1 hk).1.le harray

theorem kind_of_lexeme {l : Kind × List Char} (hl : (({} : Lexer).run source.toList)[i]? = some l) :
    (ofSource source).kinds[i]? = some l.1 := by
  rw [kinds_eq_lexemes, List.getElem?_map, hl, Option.map_some]

/-- What a word before the operands allows of the right one, if it touches the left one. -/
theorem SetOff.before_right (hset : SetOff (ofSource source) o) {p : Nat}
    {lead l : Kind × List Char} (hlead : (({} : Lexer).run source.toList)[p]? = some lead)
    (hword : lead.1.isConjunction = true) (htouch : p + 1 = o.leftFirst)
    (hl : (({} : Lexer).run source.toList)[o.rightFirst]? = some l) :
    ∀ c ∈ l.2.head?, (isNameChar c = false ∧ c ≠ '\\') ∧
      (isQuoteMark c = true →
        ∀ w, w <:+ spelled ((({} : Lexer).run source.toList).extract 0 p ++ [lead]) →
          startsWith "<<<".toList w = true → '\n' ∈ w) := by
  have hp : o.leftFirst - 1 = p := Nat.sub_eq_of_eq_add htouch.symm
  have htext : ((ofSource source).contentBetween 0 p).toList =
      spelled ((({} : Lexer).run source.toList).extract 0 p ++ [lead]) := by
    rw [toList_contentBetween, ← extract_succ (Nat.zero_le p) hlead]
  have hbefore := hset.wordBefore
    (by rw [hp]; exact kindIs_iff.2 ⟨_, kind_of_lexeme hlead, hword⟩)
  rw [hp, content_ofSource hl, htext] at hbefore
  intro c hc
  obtain ⟨hname, hquote⟩ := hbefore c hc
  exact ⟨hname, fun hq w hw => hquote hq w ((List.mem_tails w _).2 hw)⟩

theorem SetOff.not_enum (hset : SetOff (ofSource source) o) {st : Nat}
    (hst : (ofSource source).nextEffective o.rightLast = some st)
    (hk : (ofSource source).kinds[st]? = some k) (hword : k.isConjunction = true)
    (l : Kind × List Char)
    (hl : (({} : Lexer).run source.toList).extract o.leftFirst (o.leftLast + 1) = [l]) :
    lower l.2 ≠ "enum".toList := by
  intro henum
  have htext : ((ofSource source).contentBetween o.leftFirst o.leftLast).toList = l.2 := by
    rw [toList_contentBetween]
    exact (congrArg spelled hl).trans (by simp)
  have hnone := hset.enum (by rw [htext, henum])
  rw [hst, Option.any_some, kindIs_iff.2 ⟨k, hk, hword⟩] at hnone
  cases hnone

theorem SetOff.before_word (hset : SetOff (ofSource source) o) {stop : Kind × List Char}
    (hstop : (({} : Lexer).run source.toList)[o.rightLast + 1]? = some stop)
    (hword : stop.1.isConjunction = true) (hleft : o.leftFirst ≤ o.leftLast)
    (hleftLast : EffectiveAt (ofSource source).kinds o.leftLast)
    (hright : o.rightFirst ≤ o.rightLast) :
    Withstands stop.2 ((({} : Lexer).run source.toList).extract o.leftFirst (o.leftLast + 1))
      ((({} : Lexer).run source.toList).extract o.rightFirst (o.rightLast + 1)) := by
  obtain ⟨hstays, hsquare⟩ :=
    hset.wordBehind (kindIs_iff.2 ⟨_, kind_of_lexeme hstop, hword⟩)
  rw [content_ofSource hstop] at hstays
  obtain ⟨k, hk, -⟩ := hleftLast
  have hclose := lexeme_of_kind (kindIs_beq.1 hsquare)
  refine ⟨fun l hl => ?_, _, _, extract_succ hright hclose, rfl⟩
  rw [extract_succ hleft (lexeme_of_kind hk), List.getLast?_concat] at hl
  rw [← Option.some.inj hl]
  rcases hstays with harray | hstays
  · rw [kindIs_beq.1 harray] at hk
    exact .inl (Option.some.inj hk).symm
  · right
    dsimp only
    exact hstays

theorem SetOff.behind (hset : SetOff (ofSource source) o) (hleft : o.leftFirst ≤ o.leftLast)
    (hleftLast : EffectiveAt (ofSource source).kinds o.leftLast)
    (hright : o.rightFirst ≤ o.rightLast) (hsize : o.rightLast < (ofSource source).size)
    (hstops : ∀ st, (ofSource source).nextEffective o.rightLast = some st →
      ∃ k, (ofSource source).kinds[st]? = some k ∧ (endsOperand k = true ∨ k.isCloser = true)) :
    Behind ((({} : Lexer).run source.toList).extract o.leftFirst (o.leftLast + 1))
      ((({} : Lexer).run source.toList).extract o.rightFirst (o.rightLast + 1))
      ((({} : Lexer).run source.toList).drop (o.rightLast + 1)) := by
  cases hnext : (ofSource source).nextEffective o.rightLast with
  | some st =>
    obtain ⟨-, hgap⟩ := gap_of_nextEffective hnext
    obtain ⟨k, hk, hends⟩ := hstops st hnext
    have hstop := lexeme_of_kind hk
    have hsplit : (({} : Lexer).run source.toList).drop (o.rightLast + 1) =
        (({} : Lexer).run source.toList).extract (o.rightLast + 1) st ++
          (k, ((ofSource source).content st).toList) ::
            (({} : Lexer).run source.toList).drop (st + 1) := by
      rw [← drop_eq_cons hstop, extract_append_drop hgap.lt]
    refine .stop hsplit (trivia_of_gap hgap) hends (fun hword hnil => ?_) fun hword =>
      hset.not_enum hnext hk hword
    have hlt := (List.getElem?_eq_some_iff.1 hstop).1
    obtain rfl : st = o.rightLast + 1 := by
      by_contra hne
      have hle := hgap.lt
      exact extract_ne_nil (by omega) hlt.le hnil
    exact hset.before_word hstop hword hleft hleftLast hright
  | none =>
    have hgap := gap_of_nextEffective_eq_none hnext hsize
    refine .ends (fun l hl => trivia_of_gap hgap l ?_) fun hnil l hl hquoted => ?_
    · rwa [CastSpacing.size_eq_length, List.extract_eq_take_drop, List.take_of_length_le (by simp)]
    · have hend : (ofSource source).size ≤ o.rightLast + 1 := by
        rw [CastSpacing.size_eq_length]
        exact List.drop_eq_nil_iff.1 hnil
      rw [CastSpacing.size_eq_length] at hsize
      have hlast := List.getElem?_eq_getElem hsize
      rw [extract_succ hright hlast, List.getLast?_concat] at hl
      obtain rfl := Option.some.inj hl
      rw [← content_ofSource hlast]
      exact hset.sealed hend (kindIs_beq.2 (by rw [kind_of_lexeme hlast, hquoted]))

theorem unbracketed_left (h : Compares (ofSource source) i o)
    (hk : (ofSource source).kind? i = some k)
    (harray : (ofSource source).kinds[o.leftFirst]? ≠ some .openArray) :
    ∀ l ∈ (({} : Lexer).run source.toList).extract o.leftFirst (o.leftLast + 1),
      l.1.isBracket = false := by
  obtain ⟨-, hgap⟩ := gap_of_previousEffective h.leftLast
  have hi := (List.getElem?_eq_some_iff.1 ((getElem?_kinds _ i).trans hk)).1
  intro l hl
  obtain ⟨m, hm, hlt, hl⟩ := mem_extract hl
  obtain ⟨k', hk', hplain⟩ := ((constant_of_constantStart? h.leftFirst).plain harray hgap hi.le).2
    m hm (Nat.lt_of_lt_of_le hlt hgap.lt)
  obtain rfl := Option.some.inj ((kind_of_lexeme hl).symm.trans hk')
  exact (Bool.or_eq_false_iff.1 hplain).1

/-- A comparison whose operands are set off, as lexemes. -/
theorem exists_comparison (h : Compares (ofSource source) i o)
    (hk : (ofSource source).kind? i = some k) (hequality : k.isEquality = true)
    (hplain : isPlain (ofSource source) o.rightFirst o.rightLast = true)
    (hset : SetOff (ofSource source) o) :
    (∃ p, Places o p i (({} : Lexer).run source.toList).length) ∧
      ∃ q : Comparison, q.Swappable ∧ ({} : Lexer).run source.toList = q.lexemes ∧
        q.swapped.lexemes = exchanged (({} : Lexer).run source.toList) o := by
  obtain ⟨p, kp, hp, hkp, hlead⟩ := hset.exists_lead h hk
  obtain ⟨hle, hlast, depth, hlevel, hends⟩ := right_bounds h hk hequality
  have hconstant := constant_of_constantStart? h.leftFirst
  obtain ⟨-, hgap⟩ := gap_of_previousEffective hp
  obtain ⟨hleftLast, hbefore⟩ := gap_of_previousEffective h.leftLast
  obtain ⟨-, hafter⟩ := gap_of_nextEffective h.rightFirst
  obtain ⟨kl, hkl, -⟩ := id hlast
  have hlt := (List.getElem?_eq_some_iff.1 (lexeme_of_kind hkl)).1
  have hplaces : Places o p i (({} : Lexer).run source.toList).length :=
    ⟨⟨hconstant.bounds, hbefore.lt, hafter.lt, hle⟩, hgap.lt, hlt⟩
  have hleadLexeme := lexeme_of_kind hkp
  have hopLexeme := lexeme_of_kind ((getElem?_kinds _ i).trans hk)
  obtain ⟨hrightPlain, hrightFirst, hrightLast⟩ := right_lexemes hplain hset hle hlast rfl
  refine ⟨⟨p, hplaces⟩, comparisonAt _ o p i _ _, ?_,
    (lexemes_comparisonAt hplaces hleadLexeme hopLexeme).symm,
    swapped_comparisonAt hplaces hleadLexeme hopLexeme⟩
  exact
    { leads := hlead
      leadWord := fun hword hnil l hl =>
        hset.before_right hleadLexeme hword (hplaces.touches hnil) (hplaces.first_of_head hl)
      ternary := fun hk a l b hsplit hl hb => by
        obtain rfl : kp = .ternary := hk
        rw [← previousEffective_of_lexemes hsplit hl hb]
        exact hset.ternary p hp ((getElem?_kinds _ p).symm.trans hkp)
      gap := trivia_of_gap hgap
      constant := hconstant.lexemes
      before := trivia_of_gap hbefore
      compares := hequality
      after := trivia_of_gap hafter
      plain := hrightPlain
      first := hrightFirst
      last := hrightLast
      level := by
        refine ⟨depth, ?_, fun hopen => ?_⟩
        · dsimp only [comparisonAt]
          rw [List.map_take, List.map_drop, ← kinds_eq_lexemes]
          exact hlevel
        · refine unbracketed_left h hk fun harray => hopen ?_
          have hnone : (ofSource source).nextEffective o.rightLast = none := by
            by_contra hsome
            obtain ⟨st, hst⟩ := Option.ne_none_iff_exists'.1 hsome
            exact hopen (hends st hst).1
          exact Option.some.inj (hlevel.symm.trans (hset.closed hnone (kindIs_beq.2 harray)))
      behind := hset.behind hconstant.bounds hleftLast hle (by rwa [CastSpacing.size_eq_length])
        fun st hst => (hends st hst).2 }

/-! ### The text behind the edits -/

section Edited

variable {j first last : Nat} {text : String} {ls : List (Kind × List Char)} {es es' : List Edit}

theorem touches_overwrite (hle : first ≤ last) :
    Edit.touches (overwrite first last text) j = true ↔ first ≤ j ∧ j ≤ last := by
  rw [overwrite, ← List.singleton_append, Edit.touches_append, Bool.or_eq_true,
    ArrayBlankLines.touches_map_remove, List.mem_range'_1]
  simp only [Edit.touches, Edit.index, List.any_cons, List.any_nil, Bool.or_false, beq_iff_eq]
  omega

theorem spelledWith_overwrite (hls : ls.length = last + 1 - first) (hle : first ≤ last) :
    spelledWith first ls (overwrite first last text) = text.toList := by
  have hremoves : Edit.Removes ((List.range' (first + 1) (last - first)).map Edit.remove) := by
    intro e he
    obtain ⟨m, -, rfl⟩ := List.mem_map.1 he
    rfl
  have happly : ∀ j t, Edit.applyAt j (overwrite first last text) t =
      if first < j ∧ j ≤ last then "" else Edit.applyAt j [.replace first text] t := by
    intro j t
    rw [overwrite, ← List.singleton_append, Edit.applyAt_append, Edit.applyAt_removes hremoves]
    refine if_congr ?_ rfl rfl
    rw [ArrayBlankLines.touches_map_remove, List.mem_range'_1]
    omega
  have hpos : 0 < ls.length := by omega
  obtain ⟨l, rest, rfl⟩ := List.exists_cons_of_ne_nil (List.ne_nil_of_length_pos hpos)
  rw [List.length_cons] at hls
  rw [spelledWith_cons, spelledWith_removed, List.append_nil, happly, if_neg (by omega)]
  · exact congrArg String.toList (Edit.applyAt_singleton_self (.replace first text) _)
  · intro j hle hlt t
    rw [happly, if_pos (by omega)]

theorem spelledWith_left
    (h : ∀ j, first ≤ j → j < first + ls.length → ¬ Edit.touches es' j = true) :
    spelledWith first ls (es ++ es') = spelledWith first ls es :=
  spelledWith_congr fun j hle hlt t => by
    rw [Edit.applyAt_append, Edit.applyAt_of_not_touches (h j hle hlt)]

theorem spelledWith_right
    (h : ∀ j, first ≤ j → j < first + ls.length → ¬ Edit.touches es j = true) :
    spelledWith first ls (es ++ es') = spelledWith first ls es' :=
  spelledWith_congr fun j hle hlt t => by
    rw [Edit.applyAt_append, Edit.applyAt_of_not_touches (h j hle hlt)]

theorem spelledWith_drop (hle : first ≤ last) (hlast : last ≤ ls.length) :
    spelledWith first (ls.drop first) es =
      spelledWith first (ls.extract first last) es ++ spelledWith last (ls.drop last) es := by
  rw [← extract_append_drop hle, spelledWith_append, length_extract hlast, Nat.add_sub_of_le hle]

/-- A stretch of lexemes is overwritten, and `es` edits what stands behind it. -/
theorem spelledWith_overwrite_append {k : Nat} (hk : k ≤ first) (hle : first ≤ last)
    (hlast : last < ls.length) (h : ∀ j, j ≤ last → ¬ Edit.touches es j = true) :
    spelledWith k (ls.drop k) (overwrite first last text ++ es) = spelled (ls.extract k first) ++
      (text.toList ++ spelledWith (last + 1) (ls.drop (last + 1)) es) := by
  have hfirst : first ≤ ls.length := by omega
  have hbefore : spelledWith k (ls.extract k first) (overwrite first last text ++ es) =
      spelled (ls.extract k first) := by
    refine spelledWith_of_untouched fun j _ hlt => ?_
    rw [length_extract hfirst] at hlt
    rw [Edit.touches_append, Bool.or_eq_true, touches_overwrite hle]
    exact not_or.2 ⟨by omega, h j (by omega)⟩
  have hwithin : spelledWith first (ls.extract first (last + 1)) (overwrite first last text ++ es) =
      text.toList := by
    rw [spelledWith_left, spelledWith_overwrite (length_extract hlast) hle]
    intro j _ hlt
    rw [length_extract hlast] at hlt
    exact h j (by omega)
  have hbehind : spelledWith (last + 1) (ls.drop (last + 1)) (overwrite first last text ++ es) =
      spelledWith (last + 1) (ls.drop (last + 1)) es := by
    refine spelledWith_right fun j hlt _ => ?_
    rw [touches_overwrite hle]
    omega
  rw [spelledWith_drop hk hfirst, spelledWith_drop (Nat.le_succ_of_le hle) hlast, hbefore, hwithin,
    hbehind]

end Edited

/-- The edits exchange the texts of the operands. -/
theorem toList_edited_swap {p : Nat}
    (h : Places o p i (({} : Lexer).run source.toList).length) :
    ((ofSource source).edited (swap (ofSource source) o)).toList =
      spelled (exchanged (({} : Lexer).run source.toList) o) := by
  obtain ⟨⟨hlt₂, hlt₃, hlt₄, hlt₅⟩, hlt₁, hlt₆⟩ := h
  have hleft := toList_contentBetween source o.leftFirst o.leftLast
  have hright := toList_contentBetween source o.rightFirst o.rightLast
  rw [toList_edited (contents_ofSource source), spelled_reworded, swap]
  generalize (ofSource source).contentBetween o.leftFirst o.leftLast = left at hleft ⊢
  generalize (ofSource source).contentBetween o.rightFirst o.rightLast = right at hright ⊢
  generalize ({} : Lexer).run source.toList = ls at hlt₆ hleft hright ⊢
  have hafter : ∀ j, j ≤ o.leftLast →
      ¬ Edit.touches (overwrite o.rightFirst o.rightLast left) j = true := by
    intro j hle
    rw [touches_overwrite hlt₅]
    omega
  have hnone : ∀ j, ¬ Edit.touches [] j = true := fun _ => Bool.false_ne_true
  calc spelledWith 0 (ls.drop 0)
        (overwrite o.leftFirst o.leftLast right ++ overwrite o.rightFirst o.rightLast left)
      = spelled (ls.extract 0 o.leftFirst) ++ (right.toList ++
          spelledWith (o.leftLast + 1) (ls.drop (o.leftLast + 1))
            (overwrite o.rightFirst o.rightLast left)) :=
        spelledWith_overwrite_append (Nat.zero_le _) hlt₂ (by omega) hafter
    _ = spelled (ls.extract 0 o.leftFirst) ++ (right.toList ++
          (spelled (ls.extract (o.leftLast + 1) o.rightFirst) ++ (left.toList ++
            spelledWith (o.rightLast + 1) (ls.drop (o.rightLast + 1)) []))) := by
        rw [← List.append_nil (overwrite o.rightFirst o.rightLast left),
          spelledWith_overwrite_append (hlt₃.trans hlt₄) hlt₅ hlt₆ fun j _ => hnone j]
    _ = spelled (exchanged ls o) := by
        rw [spelledWith_of_untouched fun j _ _ => hnone j]
        simp only [exchanged, spelled_append, hleft, hright, List.extract_eq_take_drop]

theorem map_exchanged {α β : Type*} (f : α → β) (ls : List α) (o : Operands) :
    (exchanged ls o).map f = exchanged (ls.map f) o := by
  simp only [exchanged, List.map_append, List.extract_eq_take_drop, List.map_take, List.map_drop]

theorem code_edited_swap (h : Compares (ofSource source) i o)
    (hk : (ofSource source).kind? i = some k) (hequality : k.isEquality = true)
    (hplain : isPlain (ofSource source) o.rightFirst o.rightLast = true)
    (hset : SetOff (ofSource source) o) :
    Around o i ∧ (ofSource ((ofSource source).edited (swap (ofSource source) o))).code =
      ((exchanged (ofSource source).items.toList o).filter isEffective).map
        fun t => (t.kind, t.content) := by
  obtain ⟨⟨p, hplaces⟩, q, hq, hrun, hswapped⟩ := exists_comparison h hk hequality hplain hset
  have hrun' := hq.run hrun
  rw [hswapped, ← toList_edited_swap hplaces] at hrun'
  have hitems : (ofSource source).items.toList.map (fun t => (t.kind, t.content)) =
      (({} : Lexer).run source.toList).map fun l => (l.1, String.ofList l.2) := by
    rw [← CastSpacing.lexemes_ofSource source, List.map_map]
    simp [Function.comp_def]
  have hcommutes : ((exchanged (ofSource source).items.toList o).filter isEffective).map
      (fun t => (t.kind, t.content)) =
      ((exchanged (ofSource source).items.toList o).map fun t => (t.kind, t.content)).filter
        fun p => p.1.isEffective := by
    rw [List.filter_map]
    rfl
  refine ⟨hplaces.toAround, ?_⟩
  rw [code_ofSource, hrun', hcommutes, map_exchanged, hitems, ← map_exchanged, List.filter_map]
  rfl

end Rules.Yoda

namespace Analyzer

open Rules.Yoda

theorem isEquality_of_kinds {k : Kind} (h : info.kinds.contains k = true) : k.isEquality = true := by
  revert h
  cases k <;> decide

/-- A pass of the rule alone that commits one changeset swaps the operands of one comparison. If
they are set off, the tokens of the new text are the old ones with those of the operands exchanged. -/
theorem operands_exchanged {a : Analyzer} {s : Option Severity}
    (hrules : a.rules = [Rules.Yoda.rule.withSeverity s]) (disk : Disk) {r : Round} {es : List Edit}
    (hes : a.committed disk r = [es]) :
    ∃ i o, (Tokens.ofSource r.text).kindIs Kind.isEquality i = true ∧
      operands? (.ofSource r.text) i = some o ∧ es = swap (.ofSource r.text) o ∧
      (SetOff (.ofSource r.text) o → Around o i ∧
        (Tokens.ofSource (a.closing disk r).desk.buffer.text).code =
          ((exchanged (Tokens.ofSource r.text).items.toList o).filter Tokens.isEffective).map
            fun t => (t.kind, t.content)) := by
  have hmem : es ∈ a.committed disk r := by rw [hes]; exact List.mem_singleton_self es
  obtain ⟨t, ht, hcommitted⟩ := List.mem_flatMap.1 hmem
  have hrule : t.worker.rule =
      .ofFindings { info with severity := s.getD info.severity } findings := by
    have hmem := (Worker.of_mem_ofRules (a.worker_of_mem_turnsOf disk ht)).1
    rw [hrules] at hmem
    exact List.mem_singleton.1 hmem
  have hkind := kindIs_of_mem_turnsOf disk ht
  obtain ⟨f, hf, hfix⟩ := t.fix_of_mem_committed hrule hcommitted
  rw [findings, Site.site_of_mem_turns ht, tokens_siteOf, Option.mem_toList] at hf
  obtain ⟨o, ho, hplain, rfl⟩ := operands_of_fix hf hfix
  obtain ⟨k, hk, hequality⟩ : ∃ k, (Tokens.ofSource r.text).kinds[t.index]? = some k ∧
      k.isEquality = true := by
    obtain ⟨k, hk, hmem⟩ := Tokens.kindIs_iff.1 hkind
    refine ⟨k, hk, ?_⟩
    rw [hrule] at hmem
    exact isEquality_of_kinds hmem
  refine ⟨t.index, o, Tokens.kindIs_iff.2 ⟨k, hk, hequality⟩, ho, rfl, fun hset => ?_⟩
  rw [text_closing, outcomeOf, hes, List.flatten_singleton]
  rw [Tokens.getElem?_kinds] at hk
  exact code_edited_swap (compares_of_operands? ho) hk hequality hplain hset

example : SetOff (.ofSource "<?php return\"a\"==$x") ⟨3, 3, 5, 5⟩ := by
  decide +kernel

theorem member_and_index_exchanged :
    let a : Analyzer := ⟨⟨"/"⟩, [Rules.Yoda.rule], [], {}, true, 50⟩
    let source := "<?php return A::B === $x['k'];"
    let r : Round := ⟨⟨"a.php"⟩, source, true, a.start, []⟩
    (a.closing {} r).desk.buffer.text = "<?php return $x['k'] === A::B;" ∧
    (Tokens.ofSource (a.closing {} r).desk.buffer.text).code =
      ((exchanged (Tokens.ofSource r.text).items.toList ⟨4, 6, 10, 13⟩).filter
        Tokens.isEffective).map fun t => (t.kind, t.content) := by
  intro a source r
  have htext : (a.closing {} r).desk.buffer.text =
      "<?php return $x['k'] === A::B;" := by
    decide +kernel
  have hlength : (a.committed {} r).length = 1 := by decide +kernel
  obtain ⟨es, hes⟩ := List.length_eq_one_iff.1 hlength
  obtain ⟨i, o, hi, ho, -, hcode⟩ := operands_exchanged (a := a) (s := none) rfl {} hes
  obtain rfl : i = 8 := by
    have hone : ∀ i < 15, (Tokens.ofSource source).kindIs Kind.isEquality i = true → i = 8 := by
      decide +kernel
    have hsize : (Tokens.ofSource source).kinds.length = 15 := by decide +kernel
    obtain ⟨k, hk, -⟩ := Tokens.kindIs_iff.1 hi
    exact hone i (hsize ▸ (List.getElem?_eq_some_iff.1 hk).1) hi
  have hoperands : operands? (.ofSource source) 8 = some ⟨4, 6, 10, 13⟩ := by decide +kernel
  obtain rfl := Option.some.inj (ho.symm.trans hoperands)
  have hset : SetOff (.ofSource source) ⟨4, 6, 10, 13⟩ := by decide +kernel
  exact ⟨htext, (hcode hset).2⟩

/-- A word that touches an operand is read as one name with the operand that takes its place. -/
theorem word_and_operand_merged :
    let a : Analyzer := ⟨⟨"/"⟩, [Rules.Yoda.rule], [], {}, true, 50⟩
    let source := "<?php return\"a\"==foo;"
    let r : Round := ⟨⟨"a.php"⟩, source, true, a.start, []⟩
    ∃ o, operands? (.ofSource source) 4 = some o ∧
      a.committed {} r = [swap (.ofSource source) o] ∧ Around o 4 ∧
      (a.closing {} r).desk.buffer.text = "<?php returnfoo==\"a\";" ∧
      (Tokens.ofSource (a.closing {} r).desk.buffer.text).code ≠
        ((exchanged (Tokens.ofSource source).items.toList o).filter Tokens.isEffective).map
          fun t => (t.kind, t.content) := by
  intro a source r
  refine ⟨⟨3, 3, 5, 5⟩, ?_, ?_, ⟨?_, ?_, ?_, ?_⟩, ?_, ?_⟩ <;> decide +kernel

end Analyzer

end PhpStyle
