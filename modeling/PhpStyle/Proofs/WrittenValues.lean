import PhpStyle.Proofs.StandingLexemes
import PhpStyle.Proofs.WrittenLiterals
import PhpStyle.Signature

/-!
# Values as they are written

Literals, constants, and arrays of values, each with its text. Where a value stands between marks that
precede and marks that end values, the lexer reads lexemes with closed brackets, and the first ones tell
what kind of value it is (`Value.exists_phrase`). A list in parentheses may read as a cast, which has no
brackets at all (`exists_parens`).
-/

namespace PhpStyle.Written

open Text Lexer

/-- Behind these marks a value may stand. -/
def StartsValue (last : Option Kind) : Prop :=
  last ∈ [some .assign, some .comma, some .openArray, some .openParen, some .colon]

theorem StartsValue.facts {last : Option Kind} (h : StartsValue last) :
    squareKind last = .openArray ∧ namesMember last = false := by
  simp only [StartsValue, List.mem_cons, List.not_mem_nil, or_false] at h
  rcases h with rfl | rfl | rfl | rfl | rfl <;> exact ⟨rfl, rfl⟩

/-- What may stand behind a value. -/
inductive Ends : List Char → Prop
  | mark {c : Char} (hc : c ∈ [',', ')', ']']) (z : List Char) : Ends (c :: z)

theorem Ends.follows {z : List Char} (h : Ends z) : Follows z := by
  obtain ⟨hc, z⟩ := h
  refine .of_mark ?_ z
  simp only [List.mem_cons, List.not_mem_nil, or_false] at hc ⊢
  tauto

/-- The text of a value, or of what stands for one in a list, and its lexemes. -/
structure Phrase (text : List Char) (ls : List (Kind × List Char)) : Prop where
  spelled_eq : spelled ls = text
  inked : Inked text
  uncast : Uncast text
  closed : Closed (ls.map (·.1))
  writes : ∀ last z, StartsValue last → Ends z → Writes last ls z

theorem uncast_flatMap {α : Type} {f : α → List Char} (hf : ∀ a, Uncast (f a)) (as : List α) :
    Uncast (as.flatMap f) := by
  induction as with
  | nil => exact nofun
  | cons a as ih => exact .append (hf a) ih

theorem Name.closed_cons (n : Name) {ks : List Kind} (h : Closed ks) : Closed (n.kind :: ks) :=
  .cons (Bool.eq_false_iff.2 (Kind.not_isBracket_of_isPlain n.isPlain_kind.1)) n.isPlain_kind.2 h

def commas (texts : List (List Char)) : List Char :=
  joinWith [',', ' '] texts

/-- The lexemes of a list between brackets. -/
structure Listed (text : List Char) (ls : List (Kind × List Char)) : Prop where
  spelled_eq : spelled ls = text
  uncast : Uncast text
  balanced : Balanced (kindWord (ls.map (·.1)))
  writes : ∀ last z, StartsValue last → Ends z → Writes last ls z

theorem exists_listed {texts : List (List Char)} (h : ∀ t ∈ texts, ∃ ls, Phrase t ls) :
    ∃ ls, Listed (commas texts) ls := by
  induction texts with
  | nil => exact ⟨[], rfl, nofun, .nil, fun last z _ _ => .nil last z⟩
  | cons t texts ih =>
    obtain ⟨⟨ls, ht⟩, htexts⟩ := List.forall_mem_cons.1 h
    obtain ⟨ms, hms⟩ := ih htexts
    cases texts with
    | nil => exact ⟨ls, ht.spelled_eq, ht.uncast, ht.closed.balanced, ht.writes⟩
    | cons u texts =>
      obtain ⟨us, hu⟩ := htexts u List.mem_cons_self
      have hinked : ∀ z, Inked (spelled ms ++ z) := by
        intro z
        rw [hms.spelled_eq]
        cases texts with
        | nil => exact hu.inked.append z
        | cons v texts =>
          rw [commas, joinWith, List.append_assoc, List.append_assoc]
          · exact hu.inked.append _
          · exact nofun
      have htext : commas (t :: u :: texts) = t ++ (',' :: ' ' :: commas (u :: texts)) := by
        rw [commas, joinWith, List.append_assoc]
        · rfl
        · exact nofun
      refine ⟨ls ++ ((.comma, [',']) :: (.blank, [' ']) :: ms), ?_, ?_, ?_, fun last z hlast hz => ?_⟩
      · rw [htext, spelled_append, ht.spelled_eq, spelled_cons, spelled_cons, hms.spelled_eq]
        rfl
      · rw [htext]
        exact .append ht.uncast (.append (u := [',', ' ']) (.of_not_mem (by decide)) hms.uncast)
      · have hmarks : kindWord ([Kind.comma, .blank] ++ ms.map (·.1)) = kindWord (ms.map (·.1)) := by
          rw [kindWord_append]
          rfl
        rw [List.map_append, kindWord_append]
        exact ht.closed.balanced.append (hmarks ▸ hms.balanced)
      · refine .append (ht.writes last _ hlast (.mark (c := ',') (by decide) _)) ?_
        refine .cons (writes_mark (by decide) _) (.cons (writes_blank (hinked z)) ?_)
        exact hms.writes (some .comma) z (by simp [StartsValue]) hz

theorem castLength?_closed {t : List Char} (ht : Uncast t) {n : Nat}
    (h : castLength? ('(' :: (t ++ [')'])) = some n) : n = t.length + 2 := by
  have hchars : ∀ c ∈ t, isCastChar c = true := by
    by_contra hnot
    have hdrop : t.dropWhile isCastChar ≠ [] := fun hnil => hnot (List.dropWhile_eq_nil_iff.1 hnil)
    have hcast : Uncast (t ++ [')']) := by
      rw [Uncast, List.dropWhile_append, if_neg (by simpa using hdrop)]
      obtain ⟨c, w, hw⟩ := List.exists_cons_of_ne_nil hdrop
      rw [Uncast, hw] at ht
      rw [hw]
      exact ht
    rw [castLength?_eq_none hcast] at h
    cases h
  have hle := (castLength?_bounds h).2
  have hpos := (castLength?_bounds h).1
  have hclose := getElem?_of_castLength? h
  simp only [List.length_cons, List.length_append, List.length_nil] at hle
  -- the closing parenthesis is neither the first character nor one that may stand in a cast
  rcases Nat.lt_trichotomy (n - 1) (t.length + 1) with hlt | heq | hgt
  · obtain ⟨m, rfl⟩ | rfl : (∃ m, n = m + 2) ∨ n = 1 := by
      rcases Nat.lt_or_ge n 2 with h | h
      · exact .inr (by omega)
      · exact .inl ⟨n - 2, by omega⟩
    · have hm : m < t.length := by omega
      rw [show m + 2 - 1 = m + 1 by omega, List.getElem?_cons_succ, List.getElem?_append_left hm] at hclose
      exact absurd (hchars _ (List.mem_of_getElem? hclose)) (by decide)
    · cases hclose
  · omega
  · omega

theorem castLength?_behind (t z : List Char) :
    castLength? ('(' :: (t ++ ')' :: z)) = castLength? ('(' :: (t ++ [')'])) := by
  have hstop : ∀ (w : List Char) c, (')' :: w).head? = some c → c.isAlpha = false ∧ c ∉ [' ', '\t'] := by
    rintro w c ⟨⟩
    decide
  exact castLength?_congr (w := '(' :: t) (hstop []) (hstop z) (by simp) (List.cons_ne_nil _ _)

theorem writes_cast {t : List Char} (h : castLength? ('(' :: (t ++ [')'])) = some (t.length + 2))
    (last : Option Kind) (z : List Char) : Writes last [(.cast, '(' :: (t ++ [')']))] z := by
  refine .single (fun _ => rfl) (by simp) fun squares => ?_
  rw [List.cons_append, List.append_assoc, List.singleton_append, cutPhp_paren, castLength?_behind, h]
  simp

/-- A list in parentheses, which may be a cast. -/
theorem exists_parens {text : List Char} {ls : List (Kind × List Char)} (h : Listed text ls) :
    ∃ ms, spelled ms = '(' :: (text ++ [')']) ∧ Closed (ms.map (·.1)) ∧
      ∀ last z, Writes last ms z := by
  cases hcast : castLength? ('(' :: (text ++ [')'])) with
  | some n =>
    obtain rfl := castLength?_closed h.uncast hcast
    exact ⟨[(.cast, '(' :: (text ++ [')']))], by simp [spelled],
      .cons rfl nofun .nil, writes_cast hcast⟩
  | none =>
    refine ⟨(.openParen, ['(']) :: (ls ++ [(.closeParen, [')'])]), ?_, ?_, fun last z => ?_⟩
    · rw [spelled_cons, spelled_append, h.spelled_eq]
      rfl
    · exact .bracketed rfl h.balanced
    · have hopen : castLength? ('(' :: (spelled (ls ++ [(.closeParen, [')'])]) ++ z)) = none := by
        rw [spelled_append, h.spelled_eq, List.append_assoc]
        exact (castLength?_behind text z).trans hcast
      refine .cons (writes_openParen hopen) ?_
      exact .append (h.writes (some .openParen) _ (by simp [StartsValue]) (.mark (c := ')') (by decide) z))
        (writes_mark (by decide) z)

/-! ### Values -/

inductive Value where
  | quoted (q : Quoted)
  | number (sign : Option Sign) (n : Number)
  | constant (n : ConstantName)
  | array (long : Bool) (items : List Value)

/-- What kind of value a constant is: some are literals. -/
def Name.category (n : Name) : DefaultValue :=
  if n.isNull then .null
  else if lower n.text = "true".toList ∨ lower n.text = "false".toList then .bool
  else .expression

namespace Value

def text : Value → List Char
  | quoted q => q.text
  | number sign n => signText sign ++ n.text
  | constant n => n.text
  | array long items =>
    let list := commas (items.map text)
    if long then "array".toList ++ '(' :: (list ++ [')']) else '[' :: (list ++ [']'])

def category : Value → DefaultValue
  | quoted _ => .string
  | number _ n => if n.isFloat then .float else .int
  | constant n => n.category
  | array _ _ => .array

end Value

/-- What kind of value the first lexemes of a default tell. -/
def leadCategory : List (Kind × List Char) → DefaultValue
  | (.quoted, _) :: _ => .string
  | (.openArray, _) :: _ | (.kwArray, _) :: _ => .array
  | (.integer, _) :: _ => .int
  | (.float, _) :: _ => .float
  | (.litTrue, _) :: _ | (.litFalse, _) :: _ => .bool
  | (.litNull, _) :: _ => .null
  | (.operator, ['-']) :: (k, _) :: _ | (.operator, ['+']) :: (k, _) :: _ =>
    if k = .integer then .int else if k = .float then .float else .expression
  | _ => .expression

theorem leadCategory_constant (n : ConstantName) (u : List Char) :
    leadCategory [(n.kind, u)] = n.category := by
  have hwords : ∀ p ∈ keywords, (p.2 = .litNull ↔ p.1 = "null") ∧
      (p.2 = .litTrue ∨ p.2 = .litFalse ↔ p.1 = "true" ∨ p.1 = "false") := by decide
  have hlower : ∀ w : String, lower n.text = w.toList ↔ String.ofList (lower n.text) = w := by
    intro w
    rw [← String.toList_inj, String.toList_ofList]
  have hfree := n.free
  simp only [Name.category, Name.isNull, beq_iff_eq, hlower]
  rw [Name.keyword?] at hfree
  rw [Name.kind, Name.keyword?]
  cases hk : keywords.lookup (String.ofList (lower n.text)) with
  | none =>
    have hnone := List.lookup_eq_none_iff.1 hk
    have hne : ∀ p ∈ keywords, String.ofList (lower n.text) ≠ p.1 := fun p hp => by simpa using hnone p hp
    rw [if_neg (hne ("null", .litNull) (by decide)),
      if_neg (not_or.2 ⟨hne ("true", .litTrue) (by decide), hne ("false", .litFalse) (by decide)⟩)]
    rfl
  | some k =>
    obtain ⟨l₁, l₂, hl, -⟩ := List.lookup_eq_some_iff.1 hk
    obtain ⟨hnull, hbool⟩ := hwords (String.ofList (lower n.text), k) (by simp [hl])
    simp only at hnull hbool
    simp only [← hbool, ← hnull]
    have hmem := hfree k hk
    simp only [List.mem_cons, List.not_mem_nil, or_false] at hmem
    rcases hmem with rfl | rfl | rfl <;> rfl

/-- The lexemes of a value, of which the first tells its kind, together with the one behind it when it
is a sign. -/
structure ValuePhrase (v : Value) (ls : List (Kind × List Char)) : Prop extends Phrase v.text ls where
  lead : leadCategory ls = v.category
  starts : ∃ l ms, ls = l :: ms ∧ l.1.isEffective = true ∧
    (l.1 = .operator → ∃ m ms', ms = m :: ms' ∧ m.1.isEffective = true)

theorem inked_of_mem {c : Char} {w : List Char} (hc : c ∉ [' ', '\t', '\r', '\n']) : Inked (c :: w) :=
  ⟨c, w, rfl, hc⟩

namespace Value

theorem quoted_phrase (q : Quoted) : ValuePhrase (quoted q) [(.quoted, q.text)] where
  spelled_eq := by simp [text]
  inked := by
    have hmarks : ∀ c ∈ ['\x27', '\x22'], c ∉ [' ', '\t', '\r', '\n'] := by decide
    rw [text]
    exact inked_of_mem (hmarks _ q.mark_mem)
  uncast := by
    have hmarks : ∀ c ∈ ['\x27', '\x22'], isCastChar c = false ∧ c ≠ ')' := by decide
    obtain ⟨hcast, hne⟩ := hmarks _ q.mark_mem
    rw [text]
    exact .of_head hcast hne
  closed := .cons rfl nofun .nil
  writes _ z _ _ := q.writes z
  lead := rfl
  starts := ⟨_, _, rfl, rfl, nofun⟩

theorem constant_phrase (n : ConstantName) : ValuePhrase (constant n) [(n.kind, n.text)] where
  spelled_eq := by simp [text]
  inked := by
    rw [text]
    exact n.inked_text
  uncast := by
    rw [text]
    exact .of_not_mem (n.not_mem_text (by decide) (by decide))
  closed := n.closed_cons .nil
  writes last z hlast hz := n.writes hlast.facts.2 hz.follows
  lead := leadCategory_constant n n.text
  starts := by
    have hplain := n.isPlain_kind.1
    simp only [Kind.isPlain, Bool.and_eq_true] at hplain
    exact ⟨_, _, rfl, hplain.1, fun h => absurd h n.kind_ne_operator⟩

theorem number_phrase (n : Number) : ValuePhrase (number none n) n.lexemes where
  spelled_eq := by simp [text, signText, n.spelled_lexemes]
  inked := by
    obtain ⟨c, w, htext, -, hmarks, -⟩ := n.exists_first
    rw [text, signText, List.nil_append, htext]
    exact inked_of_mem fun h => hmarks (List.mem_append_left [')'] h)
  uncast := by
    obtain ⟨c, w, htext, hcast, hmarks, -⟩ := n.exists_first
    rw [text, signText, List.nil_append, htext]
    exact .of_head hcast (fun h => hmarks (by simp [h]))
  closed := .of_isPlain n.isPlain_lexemes
  writes _ _ _ hz := n.writes hz.follows
  lead := by
    rw [Number.lexemes, Number.kind, category]
    cases n.isFloat <;> rfl
  starts := by
    have hkind : n.kind.isEffective = true ∧ n.kind ≠ .operator := by
      rw [Number.kind]
      cases n.isFloat <;> decide
    exact ⟨_, _, rfl, hkind.1, fun h => absurd h hkind.2⟩

theorem signed_phrase (sign : Sign) (n : Number) :
    ValuePhrase (number (some sign) n) ((.operator, signText (some sign)) :: n.lexemes) where
  spelled_eq := by simp [text, n.spelled_lexemes]
  inked := by
    rw [text]
    cases sign <;> exact inked_of_mem (by decide)
  uncast := by
    rw [text]
    cases sign <;> exact .of_head (by decide) (by decide)
  closed := .cons rfl nofun (.of_isPlain n.isPlain_lexemes)
  writes last z hlast hz := by
    obtain ⟨c, w, htext, -, -, hsecond⟩ := n.exists_first
    refine .cons ?_ (n.writes hz.follows)
    rw [n.spelled_lexemes, htext]
    cases sign <;> exact writes_sign (by decide) hsecond _
  lead := by
    rw [Number.lexemes, Number.kind, category]
    cases sign <;> cases n.isFloat <;> rfl
  starts := by
    refine ⟨_, _, rfl, rfl, fun _ => ?_⟩
    rw [Number.lexemes, Number.kind]
    cases n.isFloat <;> exact ⟨_, _, rfl, rfl⟩

theorem exists_array_phrase (long : Bool) {items : List Value}
    (h : ∀ v ∈ items, ∃ ls, ValuePhrase v ls) : ∃ ls, ValuePhrase (array long items) ls := by
  have hitems : ∀ t ∈ items.map text, ∃ ls, Phrase t ls := by
    intro t ht
    obtain ⟨v, hv, rfl⟩ := List.mem_map.1 ht
    obtain ⟨ls, hls⟩ := h v hv
    exact ⟨ls, hls.toPhrase⟩
  obtain ⟨ls, hls⟩ := exists_listed hitems
  cases long with
  | false =>
    have htext : (array false items).text = '[' :: (commas (items.map text) ++ [']']) := by
      rw [text, if_neg Bool.false_ne_true]
    refine ⟨(.openArray, ['[']) :: (ls ++ [(.closeArray, [']'])]), ⟨?_, ?_, ?_, ?_, ?_⟩, ?_, ?_⟩
    · rw [htext, spelled_cons, spelled_append, hls.spelled_eq]
      rfl
    · rw [htext]
      exact inked_of_mem (by decide)
    · rw [htext]
      exact .of_head (by decide) (by decide)
    · exact .bracketed rfl hls.balanced
    · intro last z hlast _
      exact writes_array hlast.facts.1
        (hls.writes (some .openArray) _ (by simp [StartsValue]) (.mark (c := ']') (by decide) z))
    · rw [category]
      rfl
    · exact ⟨_, _, rfl, rfl, nofun⟩
  | true =>
    have htext : (array true items).text = "array".toList ++ '(' :: (commas (items.map text) ++ [')']) := by
      rw [text, if_pos rfl]
    obtain ⟨ps, hspelled, hclosed, hwrites⟩ := exists_parens hls
    refine ⟨(.kwArray, "array".toList) :: ps, ⟨?_, ?_, ?_, ?_, ?_⟩, ?_, ?_⟩
    · rw [htext, spelled_cons, hspelled]
    · rw [htext]
      exact inked_of_mem (by decide)
    · rw [htext]
      exact .append (.of_not_mem (by decide)) (.of_head (by decide) (by decide))
    · exact .cons rfl nofun hclosed
    · intro last z hlast _
      refine .cons ?_ (hwrites _ z)
      rw [hspelled]
      exact writes_keyword (p := ("array", .kwArray)) (by decide) (by decide) hlast.facts.2
        (Follows.of_mark (c := '(') (by decide) _).halts
    · rw [category]
      rfl
    · exact ⟨_, _, rfl, rfl, nofun⟩

/-- Every value is read as what it is. -/
theorem exists_phrase (v : Value) : ∃ ls, ValuePhrase v ls := by
  match v with
  | quoted q => exact ⟨_, quoted_phrase q⟩
  | number none n => exact ⟨_, number_phrase n⟩
  | number (some sign) n => exact ⟨_, signed_phrase sign n⟩
  | constant n => exact ⟨_, constant_phrase n⟩
  | array long items => exact exists_array_phrase long fun w _ => exists_phrase w
termination_by v

end Value

end PhpStyle.Written
