import PhpStyle.Proofs.BalancedBrackets
import PhpStyle.Proofs.OperandContext

/-!
# Lexemes written one after the other

`Writes last ls z` says that the lexer reads the lexemes `ls` where the text goes on with `z` and
`last` was the kind of the last token of code before them, and that it has the same square brackets
open afterwards. There is one lemma for each kind of lexeme, with what must follow it, and `append`
puts a longer text together from its parts; the lexer is not looked into again.
-/

namespace PhpStyle

open Text

namespace Lexer

variable {last : Option Kind} {c d : Char} {k : Kind} {u w y z cs : List Char}
  {ls ls' : List (Kind × List Char)}

/-- The kind of the last token of code after the lexemes. -/
def lastKind (last : Option Kind) (ls : List (Kind × List Char)) : Option Kind :=
  ls.foldl (fun last l => if l.1.isEffective then some l.1 else last) last

@[simp] theorem lastKind_cons (last : Option Kind) (l : Kind × List Char) (ls : List (Kind × List Char)) :
    lastKind last (l :: ls) = lastKind (if l.1.isEffective then some l.1 else last) ls := rfl

@[simp] theorem lastKind_nil (last : Option Kind) : lastKind last [] = last := rfl

theorem lastKind_append (last : Option Kind) (ls ls' : List (Kind × List Char)) :
    lastKind last (ls ++ ls') = lastKind (lastKind last ls) ls' :=
  List.foldl_append

def Writes (last : Option Kind) (ls : List (Kind × List Char)) (z : List Char) : Prop :=
  ∀ squares, Reads ⟨.php, squares, last⟩ ls z ⟨.php, squares, lastKind last ls⟩

theorem reads_code {s : Lexer} {squares : List Kind} (hu : u ≠ [])
    (hcut : (⟨.php, squares, last⟩ : Lexer).cutPhp (u ++ (spelled ls ++ z)) = ⟨k, u.length, .php⟩)
    (h : Reads ((⟨.php, squares, last⟩ : Lexer).advance ⟨k, u.length, .php⟩) ls z s) :
    Reads ⟨.php, squares, last⟩ ((k, u) :: ls) z s :=
  @Reads.cons _ _ ⟨k, u.length, .php⟩ _ _ _ hu hcut rfl h

namespace Writes

theorem nil (last : Option Kind) (z : List Char) : Writes last [] z :=
  fun _ => .nil _ z

theorem append (h : Writes last ls (spelled ls' ++ z)) (h' : Writes (lastKind last ls) ls' z) :
    Writes last (ls ++ ls') z := by
  intro squares
  rw [lastKind_append]
  exact (h squares).append (h' squares)

theorem cons {l : Kind × List Char} (h : Writes last [l] (spelled ls ++ z))
    (h' : Writes (if l.1.isEffective then some l.1 else last) ls z) : Writes last (l :: ls) z :=
  append h h'

theorem single (hk : ∀ squares, squaresAfter squares k = squares) (hu : u ≠ [])
    (hcut : ∀ squares, (⟨.php, squares, last⟩ : Lexer).cutPhp (u ++ z) = ⟨k, u.length, .php⟩) :
    Writes last [(k, u)] z := by
  intro squares
  refine reads_code hu (hcut squares) ?_
  have hadvance : (⟨.php, squares, last⟩ : Lexer).advance ⟨k, u.length, .php⟩ =
      ⟨.php, squares, lastKind last [(k, u)]⟩ := by
    simp [advance, hk]
  rw [hadvance]
  exact .nil _ z

/-- Square brackets with what stands between them. -/
theorem enclose {o c : Kind} {v : List Char} (ho : ∀ squares, squaresAfter squares o = o :: squares)
    (hc : ∀ squares, squaresAfter squares c = squares.tail) (hcode : c.isEffective = true ∧ o.isEffective = true)
    (hu : u ≠ []) (hv : v ≠ [])
    (hopen : ∀ squares y, (⟨.php, squares, last⟩ : Lexer).cutPhp (u ++ y) = ⟨o, u.length, .php⟩)
    (hclose : ∀ squares last y, (⟨.php, o :: squares, last⟩ : Lexer).cutPhp (v ++ y) =
      ⟨c, v.length, .php⟩)
    (h : Writes (some o) ls (v ++ z)) : Writes last ((o, u) :: (ls ++ [(c, v)])) z := by
  intro squares
  have hinner : Reads ⟨.php, o :: squares, some o⟩ (ls ++ [(c, v)]) z ⟨.php, squares, some c⟩ := by
    refine Reads.append (by simpa [spelled] using h (o :: squares)) ?_
    refine reads_code hv (hclose squares _ _) ?_
    have hadvance : (⟨.php, o :: squares, lastKind (some o) ls⟩ : Lexer).advance ⟨c, v.length, .php⟩ =
        ⟨.php, squares, some c⟩ := by
      simp [advance, hc, hcode]
    rw [hadvance]
    exact .nil _ z
  have hadvance : (⟨.php, squares, last⟩ : Lexer).advance ⟨o, u.length, .php⟩ =
      ⟨.php, o :: squares, some o⟩ := by
    simp [advance, ho, hcode]
  have hlast : lastKind last ((o, u) :: (ls ++ [(c, v)])) = some c := by
    rw [lastKind_cons, lastKind_append]
    simp [hcode]
  rw [hlast]
  refine reads_code hu (hopen squares _) ?_
  rw [hadvance]
  exact hinner

end Writes

/-- The text starts with a character, and not with a blank. -/
def Inked (cs : List Char) : Prop :=
  ∃ c z, cs = c :: z ∧ c ∉ [' ', '\t', '\r', '\n']

theorem Inked.append (h : Inked cs) (z : List Char) : Inked (cs ++ z) := by
  obtain ⟨c, v, rfl, hc⟩ := h
  exact ⟨c, v ++ z, rfl, hc⟩

theorem writes_blank (h : Inked z) : Writes last [(.blank, [' '])] z := by
  obtain ⟨c, z, rfl, hc⟩ := h
  refine .single (fun _ => rfl) (by simp) fun squares => ?_
  have hlength := blankLength_replicate 1 hc z
  rw [List.replicate_one, List.singleton_append] at hlength
  rw [List.singleton_append, cutPhp_blank _ (by decide), hlength]
  rfl

theorem writes_mark (hmark : (c, k) ∈ [(')', Kind.closeParen), ('\x7b', .openBrace), ('\x7d', .closeBrace),
    (';', .semicolon), (',', .comma)]) (z : List Char) : Writes last [(k, [c])] z := by
  simp only [List.mem_cons, Prod.mk.injEq, List.not_mem_nil, or_false] at hmark
  rcases hmark with ⟨rfl, rfl⟩ | ⟨rfl, rfl⟩ | ⟨rfl, rfl⟩ | ⟨rfl, rfl⟩ | ⟨rfl, rfl⟩
  all_goals exact .single (fun _ => rfl) (by simp) fun _ => rfl

theorem writes_openParen (h : castLength? ('(' :: z) = none) : Writes last [(.openParen, ['('])] z := by
  refine .single (fun _ => rfl) (by simp) fun squares => ?_
  rw [List.singleton_append, cutPhp_paren, h]
  rfl

theorem writes_array (hlast : squareKind last = .openArray) (h : Writes (some .openArray) ls (']' :: z)) :
    Writes last ((.openArray, ['[']) :: (ls ++ [(.closeArray, [']'])])) z := by
  refine .enclose (fun _ => rfl) (fun _ => rfl) (by decide) (by simp) (by simp) (fun squares y => ?_)
    (fun _ _ _ => rfl) h
  show (⟨squareKind last, 1, .php⟩ : Cut) = _
  rw [hlast]
  rfl

theorem writes_attribute (h : Writes (some .openAttribute) ls (']' :: z)) :
    Writes last ((.openAttribute, ['#', '[']) :: (ls ++ [(.closeAttribute, [']'])])) z :=
  .enclose (fun _ => rfl) (fun _ => rfl) (by decide) (by simp) (by simp) (fun _ _ => rfl)
    (fun _ _ _ => rfl) h

/-- The characters with which an operator goes on, except for the points of an ellipsis. -/
def seconds : List Char :=
  ['=', '>', '<', '?', '-', '&', '|', ':', '+', '*']

theorem operators_second : ∀ o ∈ operators, 2 ≤ o.1.toList.length ∧
    ∀ d ∈ o.1.toList[1]?, o.1.toList.head? = some '.' ∨ d ∈ seconds := by
  decide

theorem cutOperator_single (hc : c ≠ '.') (hd : d ∉ seconds) (z : List Char) :
    cutOperator last (c :: d :: z) = ⟨signKind last c (d :: z), 1, .php⟩ := by
  have hnone : (operators.find? fun o => startsWith o.1.toList (c :: d :: z)) = none := by
    refine List.find?_eq_none.2 fun o ho hs => ?_
    obtain ⟨hlong, hsecond⟩ := operators_second o ho
    obtain ⟨r, hr⟩ := exists_eq_append_of_startsWith hs
    obtain ⟨a, b, v, hv⟩ : ∃ a b v, o.1.toList = a :: b :: v := by
      rcases hv : o.1.toList with - | ⟨a, - | ⟨b, v⟩⟩
      · simp [hv] at hlong
      · simp [hv] at hlong
      · exact ⟨a, b, v, rfl⟩
    simp only [hv, List.cons_append, List.cons.injEq] at hr
    rcases hsecond b (by simp [hv]) with hpoint | hmem
    · rw [hv] at hpoint
      exact hc (hr.1.trans (Option.some.inj hpoint))
    · exact hd (hr.2.1 ▸ hmem)
  rw [cutOperator, hnone]

/-- The kinds of the signs between the parts of a declaration. -/
def signKinds : List (Char × Kind) :=
  [('=', .assign), ('|', .bitwiseOr), ('&', .bitwiseAnd), ('-', .operator), ('+', .operator), (':', .colon)]

theorem writes_sign (hc : (c, k) ∈ signKinds) (hd : d ∉ seconds) (z : List Char) :
    Writes last [(k, [c])] (d :: z) := by
  have hk : ∀ p ∈ signKinds, p.1 ≠ '.' ∧ p.1 ∈ ['=', '!', '*', '>', '&', '|', '-', ':', '+', '%', '^'] ∧
      (∀ squares, squaresAfter squares p.2 = squares) ∧
      (⟨p.2, 1, .php⟩ : Cut) = ⟨signKind none p.1 [], 1, .php⟩ ∧ p.1 ≠ '?' := by
    intro p hp
    simp only [signKinds, List.mem_cons, List.not_mem_nil, or_false] at hp
    rcases hp with rfl | rfl | rfl | rfl | rfl | rfl
    all_goals exact ⟨by decide, by decide, fun _ => rfl, by decide, by decide⟩
  obtain ⟨hpoint, hsign, hsquares, hkind, hquestion⟩ := hk _ hc
  refine .single hsquares (by simp) fun squares => ?_
  rw [List.singleton_append, cutPhp_sign hsign, cutOperator_single hpoint hd]
  simp only [signKind, if_neg hquestion] at hkind ⊢
  exact hkind.symm

/-- A question mark before a type. Its kind is told by the character behind the blanks. -/
theorem writes_question (hd : d ∉ seconds) (z : List Char) :
    Writes last [(signKind last '?' (d :: z), ['?'])] (d :: z) := by
  have hkind : signKind last '?' (d :: z) ∈ [Kind.nullable, .ternary] := by
    change (if _ then Kind.nullable else .ternary) ∈ _
    split <;> simp
  have hsquares : ∀ k ∈ [Kind.nullable, .ternary], ∀ squares, squaresAfter squares k = squares := by
    simp [squaresAfter]
  refine .single (hsquares _ hkind) (by simp) fun squares => ?_
  have htag : (d :: z).head? ≠ some '>' := by
    rintro h
    obtain rfl := Option.some.inj h
    exact hd (by decide)
  rw [List.singleton_append, cutPhp_question htag, cutOperator_single (by decide) hd]
  rfl

theorem writes_ellipsis (z : List Char) : Writes last [(.ellipsis, ['.', '.', '.'])] z := by
  refine .single (fun _ => rfl) (by simp) fun squares => ?_
  have hnext : ¬ ('.' :: '.' :: z).head?.any Char.isDigit = true := by simp
  exact (cutPhp_point hnext).trans rfl

/-! ### Names, literals and variables -/

theorem wordKind_of_view (hview : lower w = "enum".toList → namesMember last = false →
    (trimStart z).head?.any isNameStart = false) : wordKind last w z = wordKind last w [] :=
  wordKind_congr (v := []) fun henum hlast => hview henum hlast

/-- The kind of a name on its own. -/
def nameKind (last : Option Kind) (w : List Char) : Kind :=
  if w.contains '\\' then .name else wordKind last w []

theorem isPlain_nameKind (last : Option Kind) (w : List Char) : (nameKind last w).isPlain = true := by
  unfold nameKind
  split
  · rfl
  · exact wordKind_isPlain last w []

theorem squaresAfter_of_isPlain (hk : k.isPlain = true) (squares : List Kind) :
    squaresAfter squares k = squares :=
  squaresAfter_of_not_isBracket (Kind.not_isBracket_of_isPlain hk) squares

theorem writes_name (hu : u.head?.any (fun c => c == '\\' || isNameStart c) = true)
    (hlength : wordLength u = u.length) (hz : Halts z)
    (hview : lower u = "enum".toList → namesMember last = false →
      (trimStart z).head?.any isNameStart = false) :
    Writes last [(nameKind last u, u)] z := by
  obtain ⟨c, hc, hstart⟩ := (Option.any_eq_true _ _).1 hu
  obtain ⟨w, rfl⟩ := List.head?_eq_some_iff.1 hc
  refine .single (squaresAfter_of_isPlain (isPlain_nameKind last _)) (by simp) fun squares => ?_
  have hcut : (⟨.php, squares, last⟩ : Lexer).cutPhp (c :: (w ++ z)) = cutWord last (c :: (w ++ z)) := by
    rcases Bool.or_eq_true_iff.1 hstart with hback | hname
    · obtain rfl : c = '\\' := by simpa using hback
      rfl
    · exact cutPhp_word hname _
  have hword := wordLength_stop hz.endsName (List.cons_ne_nil c w)
  rw [hlength, List.cons_append] at hword
  rw [List.cons_append, hcut, cutWord, hword, ← List.cons_append, List.take_left, List.drop_left,
    wordKind_of_view hview, nameKind]
  simp only [List.length_cons, Nat.add_one_ne_zero, if_false]
  split <;> rfl

theorem wordLength_of_ne (hc : c ≠ '\\') (w : List Char) : wordLength (c :: w) = nameLength (c :: w) := by
  rw [wordLength]
  rintro _ ⟨⟩
  exact hc rfl

theorem wordLength_of_word (hc : isNameStart c = true) (hw : ∀ d ∈ w, isNameChar d = true) :
    wordLength (c :: w) = (c :: w).length := by
  have hback : c ≠ '\\' := by
    rintro rfl
    cases hc
  have hlength := nameLength_append (List.forall_mem_cons.2 ⟨isNameChar_of_isNameStart c hc, hw⟩) []
  rw [List.append_nil] at hlength
  rw [wordLength_of_ne hback, hlength, nameLength, Nat.add_zero]

theorem isAlpha_of_lower {v : List Char} (h : lower u = v) (hv : ∀ c ∈ v, c.isLower = true) :
    ∀ c ∈ u, c.isAlpha = true := by
  subst h
  exact fun c hc => isAlpha_of_toLower rfl (hv _ (List.mem_map_of_mem hc))

theorem keywords_lower : ∀ p ∈ keywords, p.1.toList ≠ [] ∧ (∀ c ∈ p.1.toList, c.isLower = true) ∧
    p.1 ≠ "enum" ∧ keywords.lookup p.1 = some p.2 := by
  decide

theorem nameKind_keyword {p : String × Kind} (hp : p ∈ keywords) (hu : lower u = p.1.toList)
    (hlast : namesMember last = false) : nameKind last u = p.2 := by
  obtain ⟨-, hletters, henum, hlookup⟩ := keywords_lower p hp
  have hback : ¬ u.contains '\\' = true := by
    intro hmem
    exact absurd (isAlpha_of_lower hu hletters _ (by simpa using hmem)) (by decide)
  rw [nameKind, if_neg hback, wordKind, hlast, hu, String.ofList_toList, if_neg (by simp), if_neg henum,
    hlookup, Option.getD_some]

/-- A keyword, in any letter case. -/
theorem writes_keyword {p : String × Kind} (hp : p ∈ keywords) (hu : lower u = p.1.toList)
    (hlast : namesMember last = false) (hz : Halts z) : Writes last [(p.2, u)] z := by
  obtain ⟨hne, hletters, henum, -⟩ := keywords_lower p hp
  have halpha := isAlpha_of_lower hu hletters
  obtain ⟨c, u, rfl⟩ : ∃ c v, u = c :: v := by
    refine List.exists_cons_of_ne_nil ?_
    rintro rfl
    exact hne hu.symm
  obtain ⟨hc, hw⟩ := List.forall_mem_cons.1 halpha
  rw [← nameKind_keyword hp hu hlast]
  refine writes_name (by simp [isNameStart_of_isAlpha hc])
    (wordLength_of_word (isNameStart_of_isAlpha hc) fun d hd => isNameChar_of_isAlpha d (hw d hd)) hz ?_
  intro h
  exact absurd (String.toList_inj.1 (hu.symm.trans h)) henum

theorem writes_variable (hc : isNameStart c = true) (hw : ∀ d ∈ w, isNameChar d = true) (hz : Halts z) :
    Writes last [(.variableName, '$' :: c :: w)] z := by
  refine .single (fun _ => rfl) (by simp) fun squares => ?_
  have htail : ((c :: w) ++ z).takeWhile isNameChar = c :: w := by
    have hall : ∀ d ∈ c :: w, isNameChar d = true :=
      List.forall_mem_cons.2 ⟨isNameChar_of_isNameStart c hc, hw⟩
    rw [takeWhile_stop (hz.stop fun d hd => hd), List.takeWhile_eq_self_iff.2 hall]
  have hcut : (⟨.php, squares, last⟩ : Lexer).cutPhp ('$' :: ((c :: w) ++ z)) =
      ⟨.variableName, 1 + (((c :: w) ++ z).takeWhile isNameChar).length, .php⟩ := by
    simp [cutPhp_eq, cutCode, startsWith, after?, hc]
  rw [List.cons_append, hcut, htail, Nat.add_comm]
  rfl

theorem writes_number (hc : (c.isDigit || (c = '.' && (w ++ z).head?.any Char.isDigit)) = true)
    (hk : k.isPlain = true) (hcut : cutNumber (c :: (w ++ z)) = ⟨k, (c :: w).length, .php⟩) :
    Writes last [(k, c :: w)] z :=
  .single (squaresAfter_of_isPlain hk) (by simp) fun _ => (cutPhp_number hc).trans hcut

theorem writes_quoted (hc : c ∈ ['\x27', '\x22', '\x60']) (hw : quotedTail c (w ++ z) = w.length) :
    Writes last [(.quoted, c :: w)] z := by
  refine .single (fun _ => rfl) (by simp) fun squares => ?_
  have hcut : (⟨.php, squares, last⟩ : Lexer).cutPhp (c :: (w ++ z)) =
      ⟨.quoted, 1 + quotedTail c (w ++ z), .php⟩ := by
    simp only [List.mem_cons, List.not_mem_nil, or_false] at hc
    rcases hc with rfl | rfl | rfl <;> rfl
  rw [List.cons_append, hcut, hw, List.length_cons, Nat.add_comm]

end Lexer

end PhpStyle
