import PhpStyle.Proofs.WrittenLexemes

/-!
# Names and literals as they are written

Names, strings and numbers by their parts, each with its text and with the lexemes that the lexer reads
there (`Name.writes`, `Quoted.writes`, `Number.writes`). Floating point numbers have a digit behind the
point: without one the lexer ends the number before the point. A bar among the digits of an exponent
ends the number too, but then what was read of it is a floating point number all the same.
-/

namespace PhpStyle.Written

open Text Lexer

structure Identifier where
  first : Char
  rest : List Char
  isNameStart_first : isNameStart first = true
  isNameChar_rest : ∀ c ∈ rest, isNameChar c = true

namespace Identifier

def text (w : Identifier) : List Char :=
  w.first :: w.rest

theorem isNameChar_text (w : Identifier) : ∀ c ∈ w.text, isNameChar c = true :=
  List.forall_mem_cons.2 ⟨isNameChar_of_isNameStart _ w.isNameStart_first, w.isNameChar_rest⟩

end Identifier

/-- A name, perhaps qualified, perhaps with a backslash before it. -/
structure Name where
  absolute : Bool
  first : Identifier
  others : List Identifier

namespace Name

/-- The identifiers behind the first, each behind a backslash. -/
def tail (n : Name) : List Char :=
  n.others.flatMap fun w => '\\' :: w.text

def text (n : Name) : List Char :=
  (if n.absolute then ['\\'] else []) ++ (n.first.text ++ n.tail)

/-- The keyword that a name is, in any letter case. -/
def keyword? (n : Name) : Option Kind :=
  keywords.lookup (String.ofList (lower n.text))

/-- The kind of a name that is no member's. -/
def kind (n : Name) : Kind :=
  n.keyword?.getD .name

def isNull (n : Name) : Bool :=
  lower n.text == "null".toList

theorem nameLength_flatMap (ws : List Identifier) :
    nameLength (ws.flatMap fun w => '\\' :: w.text) = (ws.flatMap fun w => '\\' :: w.text).length := by
  induction ws with
  | nil => rfl
  | cons w ws ih =>
    have hw := nameLength_append w.isNameChar_text (ws.flatMap fun w => '\\' :: w.text)
    rw [List.flatMap_cons, List.cons_append, Identifier.text, List.cons_append, nameLength,
      if_pos w.isNameStart_first, ← List.cons_append, ← Identifier.text, hw, ih]
    simp

theorem wordLength_text (n : Name) : wordLength n.text = n.text.length := by
  have hlength : nameLength (n.first.text ++ n.tail) = (n.first.text ++ n.tail).length := by
    rw [nameLength_append n.first.isNameChar_text, tail, nameLength_flatMap, List.length_append]
  have hback : n.first.first ≠ '\\' := by
    intro h
    have := n.first.isNameStart_first
    rw [h] at this
    cases this
  cases habsolute : n.absolute with
  | true =>
    rw [text, habsolute, if_pos rfl, List.singleton_append, wordLength, hlength, if_neg (by simp [Identifier.text]),
      List.length_cons]
  | false =>
    rw [text, habsolute, if_neg Bool.false_ne_true, List.nil_append, Identifier.text, List.cons_append,
      wordLength_of_ne hback, ← List.cons_append, ← Identifier.text, hlength]

theorem head?_text (n : Name) : n.text.head?.any (fun c => c == '\\' || isNameStart c) = true := by
  rw [text]
  cases n.absolute with
  | true => rfl
  | false => simp [Identifier.text, n.first.isNameStart_first]

theorem isNameChar_of_mem (n : Name) {c : Char} (hc : c ∈ n.text) : isNameChar c = true ∨ c = '\\' := by
  simp only [text, tail, List.mem_append, List.mem_flatMap, List.mem_cons] at hc
  rcases hc with hc | hc | ⟨w, -, rfl | hc⟩
  · split at hc
    · exact .inr (List.mem_singleton.1 hc)
    · cases hc
  · exact .inl (n.first.isNameChar_text c hc)
  · exact .inr rfl
  · exact .inl (w.isNameChar_text c hc)

end Name

namespace Name

theorem lookup_eq_none_of_mem {w : List Char} {c : Char} (hc : c ∈ w) (halpha : c.isAlpha = false) :
    keywords.lookup (String.ofList (lower w)) = none := by
  refine List.lookup_eq_none_iff.2 fun p hp => ?_
  obtain ⟨-, hletters, -⟩ := keywords_lower p hp
  simp only [bne_iff_ne, ne_eq]
  intro h
  have hlower : lower w = p.1.toList := by rw [← h, String.toList_ofList]
  rw [isAlpha_of_lower hlower hletters _ hc] at halpha
  cases halpha

theorem nameKind_text (n : Name) {last : Option Kind} (hlast : namesMember last = false) :
    nameKind last n.text = n.kind := by
  rw [nameKind, kind, keyword?]
  by_cases hback : '\\' ∈ n.text
  · rw [if_pos (by simpa using hback), lookup_eq_none_of_mem hback (by decide)]
    rfl
  · rw [if_neg (by simpa using hback), wordKind, hlast]
    by_cases henum : String.ofList (lower n.text) = "enum"
    · rw [henum]
      decide
    · simp [henum]

theorem kind_spec (n : Name) (P : Kind → Prop) (hname : P .name) (hkeywords : ∀ p ∈ keywords, P p.2) :
    P n.kind := by
  rw [kind, keyword?]
  cases hk : keywords.lookup (String.ofList (lower n.text)) with
  | none => exact hname
  | some k =>
    obtain ⟨l₁, l₂, hl, -⟩ := List.lookup_eq_some_iff.1 hk
    exact hkeywords (String.ofList (lower n.text), k) (by simp [hl])

theorem kind_ne_operator (n : Name) : n.kind ≠ .operator :=
  n.kind_spec (· ≠ .operator) nofun (by decide)

theorem isPlain_kind (n : Name) : n.kind.isPlain = true ∧ n.kind ≠ .comma :=
  n.kind_spec (fun k => k.isPlain = true ∧ k ≠ .comma) (by decide) (by decide)

theorem not_mem_text (n : Name) {c : Char} (hchar : isNameChar c = false) (hback : c ≠ '\\') :
    c ∉ n.text := by
  intro hc
  rcases n.isNameChar_of_mem hc with h | h
  · rw [hchar] at h
    cases h
  · exact hback h

theorem inked_text (n : Name) : Inked n.text := by
  obtain ⟨c, hc, -⟩ := (Option.any_eq_true _ _).1 n.head?_text
  obtain ⟨w, hw⟩ := List.head?_eq_some_iff.1 hc
  refine ⟨c, w, hw, fun hblank => ?_⟩
  have hblanks : ∀ c ∈ [' ', '\t', '\r', '\n'], isNameChar c = false ∧ c ≠ '\\' := by decide
  obtain ⟨hchar, hback⟩ := hblanks c hblank
  exact n.not_mem_text hchar hback (List.mem_of_head? hc)

theorem exists_first (n : Name) : ∃ c w, n.text = c :: w ∧ c ∉ seconds := by
  obtain ⟨c, hc, hstart⟩ := (Option.any_eq_true _ _).1 n.head?_text
  obtain ⟨w, hw⟩ := List.head?_eq_some_iff.1 hc
  have hmarks : ∀ d ∈ seconds, ¬ (d == '\\' || isNameStart d) = true := by decide
  exact ⟨c, w, hw, fun h => hmarks c h hstart⟩

end Name

/-- A name that may be one of the allowed keywords, and no other. -/
structure FreeName (allowed : List Kind) extends Name where
  free : ∀ k ∈ toName.keyword?, k ∈ allowed

theorem FreeName.kind_mem {allowed : List Kind} (n : FreeName allowed) : n.kind ∈ .name :: allowed := by
  have hfree := n.free
  rw [Name.kind]
  cases hk : n.keyword? with
  | none => exact List.mem_cons_self
  | some k => exact List.mem_cons_of_mem _ (hfree k hk)

/-- A type may also be called by these. -/
abbrev TypeName :=
  FreeName [.kwArray, .kwStatic, .litTrue, .litFalse, .litNull]

/-- The constants that are keywords are literals. -/
abbrev ConstantName :=
  FreeName [.litTrue, .litFalse, .litNull]

/-- What follows ends a name, and is no name itself. -/
structure Follows (z : List Char) : Prop where
  halts : Halts z
  unnamed : (trimStart z).head?.any isNameStart = false

namespace Follows

variable {c : Char}

theorem of_mark (hc : c ∈ [',', ')', ']', '|', '&', '(', ':', '$', '=']) (z : List Char) : Follows (c :: z) := by
  have hmarks : ∀ c ∈ [',', ')', ']', '|', '&', '(', ':', '$', '='], isNameChar c = false ∧
      c ∉ ['\\', '.', '+', '-'] ∧ isBlank c = false ∧ isNameStart c = false := by
    decide
  obtain ⟨hchar, hmark, hblank, hstart⟩ := hmarks c hc
  refine ⟨fun d hd => ?_, ?_⟩
  · cases hd
    exact ⟨hchar, hmark⟩
  · simp [trimStart, hblank, hstart]

theorem halts_blank (z : List Char) : Halts (' ' :: z) := by
  rintro c ⟨⟩
  exact ⟨by decide, by decide⟩

theorem of_blank {z : List Char} (hz : (trimStart z).head?.any isNameStart = false) :
    Follows (' ' :: z) :=
  ⟨halts_blank z, by rwa [trimStart, List.dropWhile_cons_of_pos (by decide)]⟩

end Follows

theorem Name.writes (n : Name) {last : Option Kind} (hlast : namesMember last = false) {z : List Char}
    (hz : Follows z) : Writes last [(n.kind, n.text)] z := by
  rw [← n.nameKind_text hlast]
  exact writes_name n.head?_text n.wordLength_text hz.halts fun _ _ => hz.unnamed

/-! ### Strings and numbers -/

/-- What may stand between quotation marks: a mark among it has a backslash before it. -/
inductive QuotedBody (mark : Char) : List Char → Prop
  | nil : QuotedBody mark []
  | plain {c : Char} {cs : List Char} (hmark : c ≠ mark) (hback : c ≠ '\\') (h : QuotedBody mark cs) :
      QuotedBody mark (c :: cs)
  | escaped (c : Char) {cs : List Char} (h : QuotedBody mark cs) : QuotedBody mark ('\\' :: c :: cs)

structure Quoted where
  mark : Char
  body : List Char
  mark_mem : mark ∈ ['\x27', '\x22']
  closed : QuotedBody mark body

namespace Quoted

def text (q : Quoted) : List Char :=
  q.mark :: (q.body ++ [q.mark])

theorem quotedTail_body {mark : Char} {cs : List Char} (hmark : mark ≠ '\\') (h : QuotedBody mark cs)
    (z : List Char) : quotedTail mark (cs ++ mark :: z) = cs.length + 1 := by
  induction h with
  | nil =>
    rw [List.nil_append, quotedTail, if_pos rfl, List.length_nil]
    exact fun _ _ hback => absurd hback hmark
  | plain hne hback _ ih =>
    rw [List.cons_append, quotedTail, if_neg hne, ih, List.length_cons]
    exact fun _ _ h => absurd h hback
  | escaped c _ ih =>
    rw [List.cons_append, List.cons_append, quotedTail, ih, List.length_cons, List.length_cons]

theorem writes (q : Quoted) {last : Option Kind} (z : List Char) :
    Writes last [(.quoted, q.text)] z := by
  have hmarks : ∀ c ∈ ['\x27', '\x22'], c ≠ '\\' ∧ c ∈ ['\x27', '\x22', '\x60'] := by decide
  obtain ⟨hback, hmark⟩ := hmarks q.mark q.mark_mem
  refine writes_quoted hmark ?_
  rw [List.append_assoc, List.singleton_append, quotedTail_body hback q.closed, List.length_append,
    List.length_singleton]

end Quoted

/-- A digit, and further digits with bars between them. -/
structure Digits where
  first : Char
  rest : List Char
  isDigit_first : first.isDigit = true
  isDigitOrBar_rest : ∀ c ∈ rest, isDigitOrBar c = true

def Digits.text (d : Digits) : List Char :=
  d.first :: d.rest

inductive Sign where
  | plus | minus

def signText : Option Sign → List Char
  | none => []
  | some .plus => ['+']
  | some .minus => ['-']

structure Exponent where
  upper : Bool
  sign : Option Sign
  digits : Digits

def exponentText : Option Exponent → List Char
  | none => []
  | some e => (if e.upper then 'E' else 'e') :: (signText e.sign ++ e.digits.text)

def fractionText : Option Digits → List Char
  | none => []
  | some d => '.' :: d.text

/-- An integer or a floating point number. A point has a digit behind it. -/
inductive Number where
  | radix (mark : Char) (digits : List Char) (hmark : isRadixMark mark = true)
      (hdigits : ∀ c ∈ digits, isHexOrBar c = true)
  | decimal (whole : Digits) (fraction : Option Digits) (exponent : Option Exponent)
  | point (fraction : Digits) (exponent : Option Exponent)

namespace Number

def text : Number → List Char
  | radix mark digits _ _ => '0' :: mark :: digits
  | decimal whole fraction exponent => whole.text ++ (fractionText fraction ++ exponentText exponent)
  | point fraction exponent => fractionText (some fraction) ++ exponentText exponent

/-- A number with a fraction or an exponent is a floating point number. -/
def isFloat : Number → Bool
  | radix _ _ _ _ => false
  | decimal _ fraction exponent => fraction.isSome || exponent.isSome
  | point _ _ => true

end Number

/-- What the lexer takes for an exponent: it does not read a bar among the digits. -/
def exponentHead : Option Exponent → List Char
  | none => []
  | some e => (if e.upper then 'E' else 'e') :: (signText e.sign ++ e.digits.text.takeWhile Char.isDigit)

def exponentRest : Option Exponent → List Char
  | none => []
  | some e => e.digits.text.dropWhile Char.isDigit

theorem exponentHead_append_rest (e : Option Exponent) : exponentHead e ++ exponentRest e = exponentText e := by
  cases e with
  | none => rfl
  | some e =>
    rw [exponentHead, exponentRest, exponentText, List.cons_append, List.append_assoc,
      List.takeWhile_append_dropWhile]

theorem exponentLength_text (e : Option Exponent) :
    exponentLength (exponentText e) = (exponentHead e).length := by
  cases e with
  | none => rfl
  | some e =>
    obtain ⟨upper, sign, digits⟩ := e
    have hpos : (digits.text.takeWhile Char.isDigit).length ≠ 0 := by
      simp [Digits.text, digits.isDigit_first]
    rw [exponentText, exponentHead, exponentLength, if_pos (by simp)]
    rcases sign with - | - | -
    · have hhead : ¬ (digits.first = '+' ∨ digits.first = '-') := by
        rintro (h | h)
        all_goals
          have := digits.isDigit_first
          rw [h] at this
          cases this
      simp only [Digits.text] at hpos
      simp [signText, Digits.text, hhead, hpos]
      omega
    all_goals
      simp only [signText, List.cons_append, List.nil_append, List.head?_cons, List.length_cons]
      simp [hpos]
      omega

theorem fractionLength_text (f : Option Digits) (e : Option Exponent) :
    fractionLength (fractionText f ++ exponentText e) = (fractionText f).length := by
  have hstop : ∀ c, (exponentText e).head? = some c → isDigitOrBar c = false ∧ c ≠ '.' := by
    intro c hc
    cases e with
    | none => cases hc
    | some e =>
      cases hc
      cases e.upper <;> decide
  cases f with
  | none =>
    rw [fractionText, List.nil_append, List.length_nil]
    cases hy : exponentText e with
    | nil => rfl
    | cons c y =>
      have hc := (hstop c (by rw [hy]; rfl)).2
      simp [fractionLength, hc]
  | some d =>
    have hrest : (d.rest ++ exponentText e).takeWhile isDigitOrBar = d.rest := by
      rw [takeWhile_stop fun c hc => (hstop c hc).1, List.takeWhile_eq_self_iff.2 d.isDigitOrBar_rest]
    rw [fractionText, Digits.text, List.cons_append, List.cons_append, fractionLength, if_pos d.isDigit_first,
      hrest, List.length_cons, List.length_cons]
    omega

theorem cutDecimal_text {whole : List Char} (hwhole : ∀ c ∈ whole, isDigitOrBar c = true)
    (f : Option Digits) (e : Option Exponent) :
    cutDecimal (whole ++ (fractionText f ++ exponentText e)) =
      ⟨if f.isSome || e.isSome then .float else .integer,
        (whole ++ (fractionText f ++ exponentHead e)).length, .php⟩ := by
  have hstop : ∀ c, (fractionText f ++ exponentText e).head? = some c → isDigitOrBar c = false := by
    intro c hc
    cases f with
    | some d =>
      cases hc
      rfl
    | none => cases e with
      | none => cases hc
      | some e =>
        cases hc
        cases e.upper <;> rfl
  have hfloat : ((fractionText f).length = 0 && (exponentHead e).length = 0) = !(f.isSome || e.isSome) := by
    cases f <;> cases e <;> simp [fractionText, exponentHead, Digits.text]
  have hexponent : exponentLength ((whole ++ (fractionText f ++ exponentText e)).drop
      (whole.length + (fractionText f).length)) = (exponentHead e).length := by
    rw [← List.append_assoc, ← List.length_append, List.drop_left, exponentLength_text]
  simp only [cutDecimal, takeWhile_stop hstop, List.takeWhile_eq_self_iff.2 hwhole, List.drop_left,
    fractionLength_text, hexponent, hfloat]
  cases (f.isSome || e.isSome) <;> simp [Nat.add_assoc]

namespace Number

/-- What the lexer takes for the number, and the rest of its exponent. -/
def head : Number → List Char
  | radix mark digits _ _ => '0' :: mark :: digits
  | decimal whole fraction exponent => whole.text ++ (fractionText fraction ++ exponentHead exponent)
  | point fraction exponent => fractionText (some fraction) ++ exponentHead exponent

def rest : Number → List Char
  | radix _ _ _ _ => []
  | decimal _ _ exponent | point _ exponent => exponentRest exponent

def kind (n : Number) : Kind :=
  if n.isFloat then .float else .integer

theorem head_append_rest (n : Number) : n.head ++ n.rest = n.text := by
  cases n with
  | radix => exact List.append_nil _
  | decimal => simp [head, rest, text, exponentHead_append_rest]
  | point => simp [head, rest, text, exponentHead_append_rest]

theorem cutNumber_of_ne {c : Char} {cs : List Char}
    (h : ∀ m, c = '0' → cs.head? = some m → isRadixMark m = false) :
    cutNumber (c :: cs) = cutDecimal (c :: cs) := by
  by_cases hc : c = '0'
  · subst hc
    cases cs with
    | nil => rfl
    | cons m cs => simp [cutNumber, h m rfl rfl]
  · simp [cutNumber, hc]

theorem isRadixMark_of_isDigitOrBar {c : Char} (h : isDigitOrBar c = true) : isRadixMark c = false := by
  by_contra hc
  simp only [isRadixMark, Bool.or_eq_true, beq_iff_eq, Bool.not_eq_false] at hc
  rcases hc with ((((rfl | rfl) | rfl) | rfl) | rfl) | rfl <;> cases h

theorem cutNumber_text (n : Number) : cutNumber n.text = ⟨n.kind, n.head.length, .php⟩ := by
  cases n with
  | radix mark digits hmark hdigits =>
    rw [text, cutNumber, if_pos hmark, List.takeWhile_eq_self_iff.2 hdigits]
    simp only [kind, isFloat, head, Bool.false_eq_true, if_false, List.length_cons, Nat.add_comm 2]
  | decimal whole fraction exponent =>
    have hwhole : ∀ c ∈ whole.text, isDigitOrBar c = true :=
      List.forall_mem_cons.2 ⟨by simp [isDigitOrBar, whole.isDigit_first], whole.isDigitOrBar_rest⟩
    have hcut := cutDecimal_text hwhole fraction exponent
    rw [text, kind, isFloat, head, ← hcut]
    refine cutNumber_of_ne fun m _ hm => ?_
    cases hrest : whole.rest with
    | cons d ds =>
      rw [hrest] at hm
      cases hm
      exact isRadixMark_of_isDigitOrBar (whole.isDigitOrBar_rest _ (by simp [hrest]))
    | nil =>
      rw [hrest] at hm
      cases fraction with
      | some d =>
        cases hm
        rfl
      | none => cases exponent with
        | none => cases hm
        | some e =>
          cases hm
          cases e.upper <;> rfl
  | point fraction exponent =>
    have hcut := @cutDecimal_text [] (List.forall_mem_nil _) (some fraction) exponent
    rw [List.nil_append, List.nil_append] at hcut
    have hpoint : ∀ m, '.' = '0' → (fraction.text ++ exponentText exponent).head? = some m →
        isRadixMark m = false := fun _ h => absurd h (by decide)
    rw [text, kind, isFloat, head, fractionText, List.cons_append, cutNumber_of_ne hpoint, ← List.cons_append,
      ← fractionText, hcut]
    rfl

theorem exists_first (n : Number) : ∃ c w, n.text = c :: w ∧ isCastChar c = false ∧
    c ∉ [' ', '\t', '\r', '\n', ')'] ∧ c ∉ seconds := by
  have hfirst : ∃ c w, n.text = c :: w ∧ (c.isDigit = true ∨ c = '.') := by
    cases n with
    | radix => exact ⟨_, _, rfl, .inl rfl⟩
    | decimal whole => exact ⟨_, _, rfl, .inl whole.isDigit_first⟩
    | point => exact ⟨_, _, rfl, .inr rfl⟩
  obtain ⟨c, w, htext, hc⟩ := hfirst
  have hmarks : ∀ d ∈ [' ', '\t', '\r', '\n', ')'] ++ seconds, ¬ (d.isDigit = true ∨ d = '.') := by decide
  have halpha : c.isAlpha = false := by
    rcases hc with hc | rfl
    · delta Char.isDigit at hc
      delta Char.isAlpha Char.isUpper Char.isLower
      grind
    · rfl
  have hblank : c ≠ ' ' ∧ c ≠ '\t' := by
    constructor
    all_goals
      rintro rfl
      exact hmarks _ (by decide) hc
  refine ⟨c, w, htext, by simp [isCastChar, halpha, hblank], fun h => ?_, fun h => ?_⟩
  · exact hmarks c (List.mem_append_left _ h) hc
  · exact hmarks c (List.mem_append_right _ h) hc

theorem starts (n : Number) : ∃ c w, n.head = c :: w ∧
    (c.isDigit || (c = '.' && (w ++ (n.rest ++ z)).head?.any Char.isDigit)) = true := by
  cases n with
  | radix mark digits => exact ⟨'0', mark :: digits, rfl, rfl⟩
  | decimal whole => exact ⟨whole.first, _, rfl, by simp [whole.isDigit_first]⟩
  | point fraction => exact ⟨'.', _, rfl, by simp [Digits.text, fraction.isDigit_first]⟩

theorem rest_cases (n : Number) : n.rest = [] ∨
    ∃ w, n.rest = '_' :: w ∧ ∀ c ∈ w, isNameChar c = true := by
  have hexponent : ∀ e, exponentRest e = [] ∨ ∃ w, exponentRest e = '_' :: w ∧
      ∀ c ∈ w, isNameChar c = true := by
    rintro (- | ⟨upper, sign, digits⟩)
    · exact .inl rfl
    · cases hw : exponentRest (some ⟨upper, sign, digits⟩) with
      | nil => exact .inl rfl
      | cons c w =>
        have hbars : ∀ c ∈ digits.text, isDigitOrBar c = true :=
          List.forall_mem_cons.2 ⟨by simp [isDigitOrBar, digits.isDigit_first], digits.isDigitOrBar_rest⟩
        have hsuffix : (c :: w) <:+ digits.text := by
          rw [← hw]
          exact List.dropWhile_suffix _
        have hc : ¬ c.isDigit = true := by
          have hdrop : digits.text.dropWhile Char.isDigit = c :: w := hw
          have := List.head_dropWhile_not (p := Char.isDigit) (l := digits.text) (by simp [hdrop])
          simpa [hdrop] using this
        have hbar : c = '_' := by
          have := hbars c (hsuffix.subset List.mem_cons_self)
          simpa [isDigitOrBar, hc] using this
        refine .inr ⟨w, by rw [hbar], fun d hd => ?_⟩
        exact isNameChar_of_isDigitOrBar d (hbars d (hsuffix.subset (List.mem_cons_of_mem c hd)))
  cases n with
  | radix => exact .inl rfl
  | decimal _ _ e => exact hexponent e
  | point _ e => exact hexponent e

/-- The lexemes of a number: behind a bar in its exponent the lexer sees a name. -/
def lexemes (n : Number) : List (Kind × List Char) :=
  (n.kind, n.head) :: if n.rest = [] then [] else [(.name, n.rest)]

theorem spelled_lexemes (n : Number) : spelled n.lexemes = n.text := by
  rw [← head_append_rest, lexemes]
  split
  · rename_i h
    simp [spelled, h]
  · simp [spelled]

theorem isPlain_kind (n : Number) : n.kind.isPlain = true ∧ n.kind ≠ .comma := by
  rw [kind]
  cases n.isFloat <;> decide

theorem isPlain_lexemes (n : Number) : ∀ k ∈ n.lexemes.map (·.1), k.isPlain = true ∧ k ≠ .comma := by
  rw [lexemes]
  split
  · simpa using n.isPlain_kind
  · have hname : Kind.name.isPlain = true ∧ Kind.name ≠ .comma := by decide
    rintro k (- | ⟨_, - | ⟨_, ⟨⟩⟩⟩)
    · exact n.isPlain_kind
    · exact hname

theorem writes (n : Number) {last : Option Kind} {z : List Char} (hz : Follows z) :
    Writes last n.lexemes z := by
  obtain ⟨c, w, hhead, hstart⟩ := n.starts (z := z)
  have hcut : cutNumber (c :: (w ++ (n.rest ++ z))) = ⟨n.kind, (c :: w).length, .php⟩ := by
    have hne : n.text ≠ [] := by rw [← head_append_rest, hhead]; simp
    have := cutNumber_stop hz.halts hne
    rwa [n.cutNumber_text, ← head_append_rest, hhead, List.append_assoc, List.cons_append] at this
  have hnumber : Writes last [(n.kind, n.head)] (n.rest ++ z) := by
    rw [hhead]
    exact writes_number hstart n.isPlain_kind.1 hcut
  rw [lexemes]
  rcases n.rest_cases with hrest | ⟨v, hrest, hv⟩
  · rw [hrest] at hnumber ⊢
    exact hnumber
  · rw [if_neg (by simp [hrest])]
    refine .cons (by simpa [spelled] using hnumber) ?_
    have hlast : (if n.kind.isEffective then some n.kind else last) = some n.kind ∧
        namesMember (some n.kind) = false := by
      rw [kind]
      cases n.isFloat <;> exact ⟨rfl, rfl⟩
    have hname : nameKind (some n.kind) n.rest = .name := by
      have hlookup := Name.lookup_eq_none_of_mem (w := n.rest) (c := '_') (by simp [hrest]) (by decide)
      have henum : String.ofList (lower n.rest) ≠ "enum" := by
        intro h
        have hlower := congrArg String.toList h
        rw [String.toList_ofList, hrest] at hlower
        simp [lower] at hlower
      rw [nameKind]
      split
      · rfl
      · rw [wordKind, hlast.2]
        simp [henum, hlookup]
    have hword : wordLength n.rest = n.rest.length := by
      rw [hrest]
      exact wordLength_of_word (by decide) hv
    rw [hlast.1, ← hname]
    exact writes_name (by simp [hrest, isNameStart]) hword hz.halts fun _ _ => hz.unnamed

end Number

end PhpStyle.Written
