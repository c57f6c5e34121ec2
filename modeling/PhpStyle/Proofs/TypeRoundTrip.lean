import PhpStyle.DocTag
import PhpStyle.Proofs.NestedText

/-!
# Reading inverts writing

`DocType.WellFormed` is the grammar of types by levels: alternatives of parts of atoms. The text of a
well-formed type is `Nested`, and what stands outside of its brackets tells its level: no bar in a
part, no ampersand in an atom (`WellFormed.nested`). So at each level the reader splits the text where
the writer joined it, and by induction on the grammar reading gives the type back
(`WellFormed.parseUnion_chars`), also from the start of a tag's text.
-/

namespace PhpStyle.DocType

open Text

/-- What can stand after a question mark, before a pair of brackets and between ampersands. -/
def isAtom : DocType → Bool
  | name _ | array _ | generic _ _ _ | nullable _ | paren _ => true
  | _ => false

def isIntersection : DocType → Bool
  | intersection _ => true
  | _ => false

def isNullable : DocType → Bool
  | nullable _ => true
  | _ => false

/-- A comma and blanks. -/
def IsSeparator (s : String) : Prop :=
  ∃ blanks : List Char, s.toList = ',' :: blanks ∧ ∀ c ∈ blanks, isBlank c = true

inductive WellFormed : DocType → Prop
  | name {s : String} (h : isTypeName s.toList = true) : WellFormed (name s)
  | union {ms : List DocType} (length : 2 ≤ ms.length)
      (level : ∀ m ∈ ms, m.isIntersection = true ∨ m.isAtom = true)
      (members : ∀ m ∈ ms, WellFormed m) : WellFormed (union ms)
  | intersection {ms : List DocType} (length : 2 ≤ ms.length) (level : ∀ m ∈ ms, m.isAtom = true)
      (members : ∀ m ∈ ms, WellFormed m) : WellFormed (intersection ms)
  | array {t : DocType} (level : t.isAtom = true) (notNullable : t.isNullable = false)
      (element : WellFormed t) : WellFormed (array t)
  | generic {base : String} {args : List DocType} {seps : List String}
      (hbase : isTypeName base.toList = true) (length : seps.length + 1 = args.length)
      (hseps : ∀ s ∈ seps, IsSeparator s) (hargs : ∀ a ∈ args, WellFormed a) :
      WellFormed (generic base args seps)
  | nullable {t : DocType} (level : t.isAtom = true) (inner : WellFormed t) : WellFormed (nullable t)
  | paren {t : DocType} (inner : WellFormed t) : WellFormed (paren t)

def isTypeChar (c : Char) : Bool :=
  isLetterOrNumeral c || c == '_' || c == '\\' || c == '-' || c == '$'

/-- Ranges of code points that hold the blanks outside of ASCII, but no letter or numeral. -/
def blankGaps : List (Nat × Nat) :=
  [(0x80, 0xA0), (0x1680, 0x1680), (0x2000, 0x205F), (0x3000, 0x3000)]

theorem ranges_avoid_gaps : ((letterRanges.toList ++ numeralRanges.toList).all fun r =>
    blankGaps.all fun g => r.2.blt g.1 || g.2.blt r.1) = true := by
  decide +kernel

theorem inRanges_of_gap {ranges : Array (Nat × Nat)}
    (hranges : ranges.toList ⊆ letterRanges.toList ++ numeralRanges.toList) {n : Nat}
    (hn : ∃ g ∈ blankGaps, g.1 ≤ n ∧ n ≤ g.2) : inRanges ranges n = false := by
  obtain ⟨g, hg, hlow, hhigh⟩ := hn
  rw [inRanges, ← Array.any_toList, List.any_eq_false]
  intro r hr
  have havoid := List.all_eq_true.1 (List.all_eq_true.1 ranges_avoid_gaps r (hranges hr)) g hg
  simp only [Bool.or_eq_true, Nat.blt_eq] at havoid
  simp only [Bool.and_eq_true, decide_eq_true_eq]
  omega

theorem toNat_lt_of_isAlphanum {c : Char} (h : c.isAlphanum = true) : c.toNat < 0x80 := by
  delta Char.isAlphanum Char.isAlpha Char.isUpper Char.isLower Char.isDigit at h
  simp only [Bool.or_eq_true, Bool.and_eq_true, decide_eq_true_eq, ge_iff_le,
    UInt32.le_iff_toNat_le] at h
  change c.val.toNat < 0x80
  change ((65 ≤ c.val.toNat ∧ c.val.toNat ≤ 90) ∨ 97 ≤ c.val.toNat ∧ c.val.toNat ≤ 122) ∨
    48 ≤ c.val.toNat ∧ c.val.toNat ≤ 57 at h
  omega

theorem isBlank_of_isTypeChar {c : Char} (h : isTypeChar c = true) : isBlank c = false := by
  rw [← Bool.not_eq_true]
  intro hb
  simp only [isBlank, Bool.or_eq_true, Bool.and_eq_true, decide_eq_true_eq, beq_iff_eq] at hb
  by_cases hascii : c.toNat < 0x80
  · have hcode : c.toNat ∈ [9, 10, 11, 12, 13, 32] := by
      simp only [List.mem_cons, List.not_mem_nil, or_false]
      omega
    have := (by decide +kernel : ∀ n ∈ [9, 10, 11, 12, 13, 32], isTypeChar (Char.ofNat n) = false) _ hcode
    rw [Char.ofNat_toNat, h] at this
    cases this
  · have hgap : ∃ g ∈ blankGaps, g.1 ≤ c.toNat ∧ c.toNat ≤ g.2 := by
      simp only [blankGaps, List.mem_cons, List.not_mem_nil, or_false, exists_eq_or_imp, exists_eq_left]
      omega
    have hletter := inRanges_of_gap (List.subset_append_left _ _) hgap
    have hnumeral := inRanges_of_gap (List.subset_append_right _ _) hgap
    have halphanum : ¬ c.isAlphanum = true := mt toNat_lt_of_isAlphanum hascii
    simp only [isTypeChar, isLetterOrNumeral, isLetter, hletter, hnumeral, Bool.and_false,
      Bool.or_false, Bool.or_eq_true, beq_iff_eq] at h
    rcases h with (((h | h) | h) | h) | h
    · exact halphanum (by simpa [Char.isAlphanum, or_comm] using h)
    all_goals
      rw [h] at hascii
      exact hascii (by decide)

/-- Marks that no name holds. -/
def marks : List Char :=
  ['<', '\x7b', '(', '[', '>', '\x7d', ')', ']', '\x27', '\x22', '|', '&', ',', ':', '?', '.']

theorem isTypeChar_marks : ∀ c ∈ marks, isTypeChar c = false := by
  have h : (marks.all fun c => !isTypeChar c) = true := by decide +kernel
  simpa only [List.all_eq_true, Bool.not_eq_true'] using h

theorem ne_of_isTypeChar {c d : Char} (h : isTypeChar c = true) (hd : d ∈ marks) : c ≠ d := by
  rintro rfl
  rw [isTypeChar_marks c hd] at h
  cases h

theorem isBlank_marks : ∀ c ∈ marks, isBlank c = false := by
  have h : (marks.all fun c => !isBlank c) = true := by decide
  simpa only [List.all_eq_true, Bool.not_eq_true'] using h

theorem ne_of_isBlank {c d : Char} (h : isBlank c = true) (hd : d ∈ marks) : c ≠ d := by
  rintro rfl
  rw [isBlank_marks c hd] at h
  cases h

theorem isInert_of_ne {c : Char} (h : ∀ d ∈ marks, c ≠ d) : isInert c = true := by
  simp only [marks, List.forall_mem_cons] at h
  simp [isInert, opens, closes, isQuote, h]

theorem isTypeChar_of_mem {cs : List Char} (h : isTypeName cs = true) : ∀ c ∈ cs, isTypeChar c = true := by
  have hplain : ∀ (c : Char) (ds : List Char), ((isLetter c || c == '_' || c == '\\') &&
      ds.all fun d => isLetterOrNumeral d || d == '_' || d == '\\' || d == '-') = true →
      ∀ d ∈ c :: ds, isTypeChar d = true := by
    intro c ds h
    simp only [Bool.and_eq_true, List.all_eq_true] at h
    refine List.forall_mem_cons.2 ⟨?_, fun d hd => ?_⟩
    · have hc := h.1
      simp only [isTypeChar, isLetterOrNumeral, Bool.or_eq_true] at hc ⊢
      rcases hc with (hc | hc) | hc <;> simp [hc]
    · rw [isTypeChar, h.2 d hd, Bool.true_or]
  unfold isTypeName at h
  cases cs with
  | nil => simp
  | cons c cs =>
    by_cases hc : c = '$'
    · subst hc
      cases cs with
      | nil => cases h
      | cons d ds => exact List.forall_mem_cons.2 ⟨by decide +kernel, hplain d ds h⟩
    · rw [if_neg (by simpa using hc)] at h
      exact hplain c cs h

theorem ne_nil_of_isTypeName {cs : List Char} (h : isTypeName cs = true) : cs ≠ [] := by
  rintro rfl
  cases h

/-! ### Texts of well-formed types -/

/-- What may stand outside of brackets in alternatives. -/
def unionTop (c : Char) : Bool :=
  !isBlank c && c != ',' && c != ':'

def intersectionTop (c : Char) : Bool :=
  unionTop c && c != '|'

def atomTop (c : Char) : Bool :=
  intersectionTop c && c != '&'

/-- What may stand outside of brackets in a type of the level of `t`. -/
def topOf : DocType → Char → Bool
  | union _ => unionTop
  | intersection _ => intersectionTop
  | _ => atomTop

theorem topOf_of_isAtom {t : DocType} (h : t.isAtom = true) : topOf t = atomTop := by
  cases t <;> first | rfl | cases h

theorem intersectionTop_of_atomTop {c : Char} (h : atomTop c = true) : intersectionTop c = true :=
  (Bool.and_eq_true_iff.1 h).1

theorem unionTop_of_intersectionTop {c : Char} (h : intersectionTop c = true) : unionTop c = true :=
  (Bool.and_eq_true_iff.1 h).1

theorem unionTop_of_topOf {t : DocType} {c : Char} (h : topOf t c = true) : unionTop c = true := by
  cases t with
  | union => exact h
  | intersection => exact unionTop_of_intersectionTop h
  | _ => exact unionTop_of_intersectionTop (intersectionTop_of_atomTop h)

theorem atomTop_of_isTypeChar {c : Char} (h : isTypeChar c = true) : atomTop c = true := by
  have hne : ∀ d ∈ marks, c ≠ d := fun d hd => ne_of_isTypeChar h hd
  simp only [marks, List.forall_mem_cons] at hne
  simp [atomTop, intersectionTop, unionTop, isBlank_of_isTypeChar h, hne]

theorem nested_of_isTypeName {cs : List Char} (h : isTypeName cs = true) : Nested atomTop cs :=
  .of_forall fun c hc => ⟨isInert_of_ne fun _ hd => ne_of_isTypeChar (isTypeChar_of_mem h c hc) hd,
    atomTop_of_isTypeChar (isTypeChar_of_mem h c hc)⟩

theorem joined_cons (sep : Char) (t : DocType) (ts : List DocType) :
    joined sep (t :: ts) = t.chars ++ (ts.map chars).flatMap (sep :: ·) := by
  induction ts generalizing t with
  | nil => simp [joined]
  | cons u us ih => rw [joined, ih, List.map_cons, List.flatMap_cons, List.cons_append]; exact nofun

/-- The arguments after the first, each behind the blanks of its separator. -/
def laterArgs (args : List DocType) (seps : List String) : List (List Char) :=
  List.zipWith (fun a s => s.toList.tail ++ a.chars) args seps

theorem argChars_cons {t : DocType} {ts : List DocType} {seps : List String}
    (hlength : seps.length = ts.length) (hseps : ∀ s ∈ seps, IsSeparator s) :
    argChars (t :: ts) seps = t.chars ++ (laterArgs ts seps).flatMap (',' :: ·) := by
  induction ts generalizing t seps with
  | nil => simp [argChars, laterArgs]
  | cons u us ih =>
    cases seps with
    | nil => simp at hlength
    | cons s seps =>
      obtain ⟨⟨blanks, hs, -⟩, hseps⟩ := List.forall_mem_cons.1 hseps
      rw [argChars, List.headD_cons, List.tail_cons, ih (by simpa using hlength) hseps]
      · simp [laterArgs, hs]
      · exact nofun

theorem nested_flatMap {top : Char → Bool} {sep : Char} (hsep : isInert sep = true)
    (htop : top sep = true) {ps : List (List Char)} (h : ∀ p ∈ ps, Nested top p) :
    Nested top (ps.flatMap (sep :: ·)) := by
  induction ps with
  | nil => exact .nil
  | cons p ps ih =>
    obtain ⟨hp, hps⟩ := List.forall_mem_cons.1 h
    rw [List.flatMap_cons]
    exact (Nested.char hsep htop hp).append (ih hps)

theorem nested_joined {top : Char → Bool} {sep : Char} (hsep : isInert sep = true)
    (htop : top sep = true) {ms : List DocType} (h : ∀ m ∈ ms, Nested top m.chars) :
    Nested top (joined sep ms) := by
  cases ms with
  | nil => exact .nil
  | cons m ms =>
    obtain ⟨hm, hms⟩ := List.forall_mem_cons.1 h
    rw [joined_cons]
    exact hm.append (nested_flatMap hsep htop (List.forall_mem_map.2 hms))

theorem nested_laterArgs {args : List DocType} {seps : List String}
    (hseps : ∀ s ∈ seps, IsSeparator s) (hargs : ∀ a ∈ args, Nested unionTop a.chars) :
    ∀ p ∈ laterArgs args seps, Nested (· != ',') p := by
  induction args generalizing seps with
  | nil => simp [laterArgs]
  | cons a args ih =>
    cases seps with
    | nil => simp [laterArgs]
    | cons s seps =>
      obtain ⟨⟨blanks, hs, hblanks⟩, hseps⟩ := List.forall_mem_cons.1 hseps
      obtain ⟨ha, hargs⟩ := List.forall_mem_cons.1 hargs
      refine List.forall_mem_cons.2 ⟨?_, ih hseps hargs⟩
      simp only [hs, List.tail_cons]
      refine Nested.append (.of_forall fun c hc => ⟨isInert_of_ne fun _ hd => ne_of_isBlank (hblanks c hc) hd, ?_⟩)
        (ha.mono fun c hc => ?_)
      · have hc := hblanks c hc
        rw [bne_iff_ne]
        rintro rfl
        cases hc
      · simp only [unionTop, Bool.and_eq_true] at hc
        exact hc.1.2

theorem nested_argChars {args : List DocType} {seps : List String}
    (hlength : seps.length + 1 = args.length) (hseps : ∀ s ∈ seps, IsSeparator s)
    (hargs : ∀ a ∈ args, Nested unionTop a.chars) : Nested (fun _ => true) (argChars args seps) := by
  cases args with
  | nil => cases hlength
  | cons a args =>
    obtain ⟨ha, hargs⟩ := List.forall_mem_cons.1 hargs
    rw [argChars_cons (by simpa using hlength) hseps]
    refine (ha.mono fun _ _ => rfl).append (nested_flatMap (by decide) rfl fun p hp => ?_)
    exact (nested_laterArgs hseps hargs p hp).mono fun _ _ => rfl

theorem WellFormed.nested {t : DocType} (h : t.WellFormed) : Nested (topOf t) t.chars := by
  induction h with
  | name h => exact nested_of_isTypeName h
  | @union ms _ _ _ ih =>
    refine nested_joined (by decide) (show unionTop '|' = true by decide) fun m hm => ?_
    exact (ih m hm).mono fun c hc => unionTop_of_topOf hc
  | @intersection ms _ level _ ih =>
    have htop : intersectionTop '&' = true := by decide
    refine nested_joined (by decide) htop fun m hm => (ih m hm).mono fun c hc => ?_
    rw [topOf_of_isAtom (level m hm)] at hc
    exact intersectionTop_of_atomTop hc
  | @array t level _ _ ih =>
    rw [topOf_of_isAtom level] at ih
    exact ih.append (.bracket (o := '[') (c := ']') (by decide) (by decide) .nil .nil)
  | @generic base args seps hbase length hseps _ ih =>
    have hargs := nested_argChars length hseps fun a ha => (ih a ha).mono fun c hc => unionTop_of_topOf hc
    rw [chars, List.append_assoc, List.cons_append]
    exact (nested_of_isTypeName hbase).append (hargs.enclosed (by decide) (by decide) _)
  | @nullable t level _ ih =>
    rw [topOf_of_isAtom level] at ih
    exact .char (by decide) (show atomTop '?' = true by decide) ih
  | paren _ ih => exact ih.enclosed (by decide) (by decide) _

/-- The text of a well-formed type starts with a mark or a character of a name, never a blank; with
a question mark only if the type is nullable or starts with one that is. -/
theorem WellFormed.head {t : DocType} (h : t.WellFormed) : ∃ c cs, t.chars = c :: cs ∧
    (isTypeChar c = true ∨ c = '(' ∨ c = '?') ∧
    (t.isAtom = true → t.isNullable = false → c ≠ '?') := by
  have hjoined : ∀ (sep : Char) (ms : List DocType), 2 ≤ ms.length →
      (∀ m ∈ ms, ∃ c cs, m.chars = c :: cs ∧ (isTypeChar c = true ∨ c = '(' ∨ c = '?') ∧
        (m.isAtom = true → m.isNullable = false → c ≠ '?')) →
      ∃ c cs, joined sep ms = c :: cs ∧ (isTypeChar c = true ∨ c = '(' ∨ c = '?') := by
    intro sep ms hlength hms
    cases ms with
    | nil => simp at hlength
    | cons m ms =>
      obtain ⟨c, cs, hm, hc, -⟩ := hms m List.mem_cons_self
      exact ⟨c, _, by rw [joined_cons, hm, List.cons_append], hc⟩
  have hname : ∀ s : List Char, isTypeName s = true → ∃ c cs, s = c :: cs ∧ isTypeChar c = true := by
    intro s hs
    obtain ⟨c, cs, rfl⟩ := List.exists_cons_of_ne_nil (ne_nil_of_isTypeName hs)
    exact ⟨c, cs, rfl, isTypeChar_of_mem hs c List.mem_cons_self⟩
  induction h with
  | @name s hs =>
    obtain ⟨c, cs, hs, hc⟩ := hname _ hs
    exact ⟨c, cs, hs, .inl hc, fun _ _ => ne_of_isTypeChar hc (by decide)⟩
  | @union ms length _ _ ih =>
    obtain ⟨c, cs, hms, hc⟩ := hjoined '|' ms length ih
    exact ⟨c, cs, hms, hc, fun hatom => Bool.noConfusion hatom⟩
  | @intersection ms length _ _ ih =>
    obtain ⟨c, cs, hms, hc⟩ := hjoined '&' ms length ih
    exact ⟨c, cs, hms, hc, fun hatom => Bool.noConfusion hatom⟩
  | @array t level notNullable _ ih =>
    obtain ⟨c, cs, ht, hc, hne⟩ := ih
    refine ⟨c, _, by rw [chars, ht, List.cons_append], hc, fun _ _ => hne level notNullable⟩
  | @generic base args seps hbase _ _ _ _ =>
    obtain ⟨c, cs, hs, hc⟩ := hname _ hbase
    exact ⟨c, _, by rw [chars, hs, List.cons_append, List.cons_append], .inl hc,
      fun _ _ => ne_of_isTypeChar hc (by decide)⟩
  | @nullable t _ _ _ =>
    exact ⟨'?', t.chars, rfl, .inr (.inr rfl), fun _ hnot => Bool.noConfusion hnot⟩
  | @paren t _ _ => exact ⟨'(', t.chars ++ [')'], rfl, .inr (.inl rfl), fun _ _ => by decide⟩

theorem parseUnion_eq (cs : List Char) : parseUnion cs =
    if 1 < (splitTop '|' 0 none cs).length then
      .union ((splitTop '|' 0 none cs).map parseIntersection)
    else parseIntersection cs := by
  rw [parseUnion, List.map_attach_eq_pmap, List.pmap_eq_map]

theorem parseIntersection_eq (cs : List Char) : parseIntersection cs =
    if 1 < (splitTop '&' 0 none cs).length then
      .intersection ((splitTop '&' 0 none cs).map parseAtom)
    else parseAtom cs := by
  rw [parseIntersection, List.map_attach_eq_pmap, List.pmap_eq_map]

theorem parseAtom_nullable (cs : List Char) : parseAtom ('?' :: cs) = .nullable (parseAtom cs) := by
  rw [parseAtom]

theorem parseAtom_eq {cs : List Char} (hhead : cs.head? ≠ some '?') : parseAtom cs =
    match arrayElement? cs with
    | some inner => .array (parseAtom inner)
    | none => match parenthesized? cs with
      | some inner => .paren (parseUnion inner)
      | none => match genericParts? cs with
        | some (base, inner) => .generic (String.ofList base)
            ((splitTop ',' 0 none inner).map fun p => parseUnion (trimStart p))
            ((splitTop ',' 0 none inner).tail.map fun p => String.ofList (',' :: p.takeWhile isBlank))
        | none => if isTypeName cs then .name (String.ofList cs) else .verbatim (String.ofList cs) := by
  rw [parseAtom]
  · split
    · rename_i harray
      rw [harray]
    · rename_i harray
      rw [harray]
      split
      · rename_i hparen
        rw [hparen]
      · rename_i hparen
        rw [hparen]
        split
        · rename_i hgeneric
          rw [hgeneric]
          simp only [List.map_attach_eq_pmap, List.pmap_eq_map]
        · rename_i hgeneric
          rw [hgeneric]
  · rintro rest rfl
    exact hhead rfl

theorem arrayElement?_append {cs : List Char} (hne : cs ≠ []) (h : balanced 0 cs = true) :
    arrayElement? (cs ++ ['[', ']']) = some cs := by
  have hempty : cs.isEmpty = false := by simpa using hne
  simp [arrayElement?, h, hempty]

theorem arrayElement?_eq_none {cs : List Char} {c : Char} (hc : c ≠ ']') :
    arrayElement? (cs ++ [c]) = none := by
  unfold arrayElement?
  simp only
  rw [if_neg]
  intro h
  simp only [Bool.and_eq_true, decide_eq_true_eq] at h
  have hlast := congrArg List.getLast? h.1.1
  rw [List.getLast?_drop] at hlast
  split at hlast
  · cases hlast
  · rw [List.getLast?_concat] at hlast
    exact hc (Option.some.inj hlast)

theorem parenthesized?_enclosed {top : Char → Bool} {cs : List Char} (h : Nested top cs) :
    parenthesized? ('(' :: (cs ++ [')'])) = some cs := by
  have henc : encloses ('(' :: (cs ++ [')'])) = true := encloses_of_nested h (by decide) (by decide)
  have hlast : ('(' :: (cs ++ [')'])).getLast? = some ')' := by
    rw [← List.cons_append, List.getLast?_concat]
  simp [parenthesized?, henc, hlast]

theorem genericParts?_enclosed {top : Char → Bool} {base cs : List Char}
    (hbase : isTypeName base = true) (h : Nested top cs) :
    genericParts? (base ++ '<' :: (cs ++ ['>'])) = some (base, cs) := by
  have hne : ∀ c ∈ base, (c ≠ '<') = True := fun c hc =>
    eq_true (ne_of_isTypeChar (isTypeChar_of_mem hbase c hc) (by decide))
  have htake : (base ++ '<' :: (cs ++ ['>'])).takeWhile (· ≠ '<') = base := by
    rw [List.takeWhile_append_of_pos (by simpa using hne)]
    simp
  have henc : encloses ('<' :: (cs ++ ['>'])) = true := encloses_of_nested h (by decide) (by decide)
  have hlast : ('<' :: (cs ++ ['>'])).getLast? = some '>' := by
    rw [← List.cons_append, List.getLast?_concat]
  unfold genericParts?
  simp only [htake, List.drop_left]
  simp [hbase, henc, hlast]

theorem genericParts?_eq_none {cs : List Char} (h : '<' ∉ cs) : genericParts? cs = none := by
  have htake : cs.takeWhile (· ≠ '<') = cs := by
    have hne : ∀ c ∈ cs, decide (c ≠ '<') = true := fun c hc => by
      simpa using fun heq : c = '<' => h (heq ▸ hc)
    have := @List.takeWhile_append_of_pos _ _ cs [] hne
    rwa [List.append_nil, List.takeWhile_nil, List.append_nil] at this
  unfold genericParts?
  simp only [htake, List.drop_length]
  simp

theorem parenthesized?_eq_none {c : Char} {cs : List Char} (hc : c ≠ '(') :
    parenthesized? (c :: cs) = none := by
  simp [parenthesized?, hc]

/-! ### Reading back -/

theorem splitTop_of_nested {top : Char → Bool} {cs : List Char} (h : Nested top cs) {sep : Char}
    (hsep : isInert sep = true) (htop : top sep = false) : splitTop sep 0 none cs = [cs] := by
  have := @splitTop_pieces sep hsep cs [] (by simpa using ⟨top, h, htop⟩)
  rwa [List.flatMap_nil, List.append_nil] at this

theorem splitTop_joined {sep : Char} (hsep : isInert sep = true) {ms : List DocType} (hne : ms ≠ [])
    (h : ∀ m ∈ ms, m.WellFormed ∧ topOf m sep = false) :
    splitTop sep 0 none (joined sep ms) = ms.map chars := by
  cases ms with
  | nil => exact absurd rfl hne
  | cons m ms =>
    rw [joined_cons, splitTop_pieces hsep, List.map_cons]
    rw [← List.map_cons (f := chars)]
    intro q hq
    obtain ⟨m, hm, rfl⟩ := List.mem_map.1 hq
    exact ⟨topOf m, (h m hm).1.nested, (h m hm).2⟩

theorem trimStart_blanks {blanks cs : List Char} (hblanks : ∀ c ∈ blanks, isBlank c = true) {c : Char}
    (hc : isBlank c = false) : trimStart (blanks ++ c :: cs) = c :: cs := by
  rw [trimStart, List.dropWhile_append_of_pos hblanks, List.dropWhile_cons_of_neg (by simp [hc])]

theorem isBlank_head {c : Char} (h : isTypeChar c = true ∨ c = '(' ∨ c = '?') : isBlank c = false := by
  rcases h with h | rfl | rfl
  · exact isBlank_of_isTypeChar h
  · decide
  · decide

theorem read_laterArgs {args : List DocType} {seps : List String} (hlength : seps.length = args.length)
    (hseps : ∀ s ∈ seps, IsSeparator s) (hargs : ∀ a ∈ args, a.WellFormed)
    (hread : ∀ a ∈ args, parseUnion a.chars = a) :
    (laterArgs args seps).map (fun p => parseUnion (trimStart p)) = args ∧
      (laterArgs args seps).map (fun p => String.ofList (',' :: p.takeWhile isBlank)) = seps := by
  induction args generalizing seps with
  | nil =>
    cases seps with
    | nil => exact ⟨rfl, rfl⟩
    | cons s seps => cases hlength
  | cons a args ih =>
    cases seps with
    | nil => cases hlength
    | cons s seps =>
      obtain ⟨⟨blanks, hs, hblanks⟩, hseps⟩ := List.forall_mem_cons.1 hseps
      obtain ⟨ha, hargs⟩ := List.forall_mem_cons.1 hargs
      obtain ⟨hreada, hread⟩ := List.forall_mem_cons.1 hread
      obtain ⟨ihargs, ihseps⟩ := ih (by simpa using hlength) hseps hargs hread
      obtain ⟨c, cs, hchars, hc, -⟩ := ha.head
      have hstart : laterArgs (a :: args) (s :: seps) = (blanks ++ a.chars) :: laterArgs args seps := by
        simp [laterArgs, hs]
      have htrim : trimStart (blanks ++ a.chars) = a.chars := by
        rw [hchars, trimStart_blanks hblanks (isBlank_head hc)]
      have htake : (blanks ++ a.chars).takeWhile isBlank = blanks := by
        rw [hchars, List.takeWhile_append_of_pos hblanks, List.takeWhile_cons_of_neg (by simp [isBlank_head hc]),
          List.append_nil]
      rw [hstart, List.map_cons, List.map_cons, ihargs, ihseps, htrim, htake, hreada, ← hs,
        String.ofList_toList]
      exact ⟨rfl, rfl⟩

/-- What the reader gives at each level for the text of `t`. -/
structure ReadsBack (t : DocType) : Prop where
  union : parseUnion t.chars = t
  intersection : t.isIntersection = true ∨ t.isAtom = true → parseIntersection t.chars = t
  atom : t.isAtom = true → parseAtom t.chars = t

theorem ReadsBack.of_atom {t : DocType} (h : t.WellFormed) (hlevel : t.isAtom = true)
    (hread : parseAtom t.chars = t) : t.ReadsBack := by
  have hnested := h.nested
  rw [topOf_of_isAtom hlevel] at hnested
  have hintersection : parseIntersection t.chars = t := by
    rw [parseIntersection_eq, splitTop_of_nested hnested (by decide) (by decide), if_neg (by simp), hread]
  have hunion : parseUnion t.chars = t := by
    rw [parseUnion_eq, splitTop_of_nested hnested (by decide) (by decide), if_neg (by simp), hintersection]
  exact ⟨hunion, fun _ => hintersection, fun _ => hread⟩

theorem parseAtom_name {cs : List Char} (h : isTypeName cs = true) :
    parseAtom cs = .name (String.ofList cs) := by
  have hmark : ∀ d ∈ DocType.marks, d ∉ cs := fun d hd hmem =>
    ne_of_isTypeChar (isTypeChar_of_mem h d hmem) hd rfl
  have harray : arrayElement? cs = none := by
    rcases List.eq_nil_or_concat cs with rfl | ⟨init, c, rfl⟩
    · rfl
    · rw [List.concat_eq_append] at hmark ⊢
      exact arrayElement?_eq_none fun hc => hmark ']' (by decide) (by simp [hc])
  have hparen : parenthesized? cs = none := by
    obtain ⟨c, ds, rfl⟩ := List.exists_cons_of_ne_nil (ne_nil_of_isTypeName h)
    exact parenthesized?_eq_none fun hc => hmark '(' (by decide) (by simp [hc])
  have hhead : cs.head? ≠ some '?' := fun hc => hmark '?' (by decide) (List.mem_of_head? hc)
  rw [parseAtom_eq hhead, harray, hparen, genericParts?_eq_none (hmark '<' (by decide))]
  simp only [h, if_true]

theorem parseAtom_generic {base : String} {args : List DocType} {seps : List String}
    (hbase : isTypeName base.toList = true) (hlength : seps.length + 1 = args.length)
    (hseps : ∀ s ∈ seps, IsSeparator s) (hargs : ∀ a ∈ args, a.WellFormed)
    (hread : ∀ a ∈ args, parseUnion a.chars = a) :
    parseAtom (generic base args seps).chars = generic base args seps := by
  have htop : ∀ a ∈ args, Nested unionTop a.chars := fun a ha =>
    (hargs a ha).nested.mono fun c hc => unionTop_of_topOf hc
  have hgeneric := genericParts?_enclosed hbase (nested_argChars hlength hseps htop)
  obtain ⟨c, cs, hchars, hc⟩ : ∃ c cs, base.toList = c :: cs ∧ isTypeChar c = true := by
    obtain ⟨c, cs, hchars⟩ := List.exists_cons_of_ne_nil (ne_nil_of_isTypeName hbase)
    exact ⟨c, cs, hchars, isTypeChar_of_mem hbase c (by rw [hchars]; exact List.mem_cons_self)⟩
  cases args with
  | nil => cases hlength
  | cons a args =>
    obtain ⟨ha, hargs⟩ := List.forall_mem_cons.1 hargs
    obtain ⟨hreada, hread⟩ := List.forall_mem_cons.1 hread
    obtain ⟨htopa, htop⟩ := List.forall_mem_cons.1 htop
    have hlength : seps.length = args.length := by simpa using hlength
    obtain ⟨hlaterArgs, hlaterSeps⟩ := read_laterArgs hlength hseps hargs hread
    have hsplit : splitTop ',' 0 none (argChars (a :: args) seps) = a.chars :: laterArgs args seps := by
      rw [argChars_cons hlength hseps]
      refine splitTop_pieces (by decide) (List.forall_mem_cons.2 ⟨⟨_, htopa, by decide⟩, ?_⟩)
      exact fun p hp => ⟨_, nested_laterArgs hseps htop p hp, by decide⟩
    have htrim : trimStart a.chars = a.chars := by
      obtain ⟨c, cs, hchars, hc, -⟩ := ha.head
      rw [hchars]
      exact trimStart_blanks (List.forall_mem_nil _) (isBlank_head hc)
    have harray : arrayElement? (base.toList ++ '<' :: (argChars (a :: args) seps ++ ['>'])) = none := by
      rw [← List.cons_append, ← List.append_assoc]
      exact arrayElement?_eq_none (by decide)
    have hparen : parenthesized? (base.toList ++ '<' :: (argChars (a :: args) seps ++ ['>'])) = none := by
      rw [hchars, List.cons_append]
      exact parenthesized?_eq_none (ne_of_isTypeChar hc (by decide))
    have hhead : (base.toList ++ '<' :: (argChars (a :: args) seps ++ ['>'])).head? ≠ some '?' := by
      rw [hchars, List.cons_append, List.head?_cons]
      exact fun h => ne_of_isTypeChar hc (by decide) (Option.some.inj h)
    rw [chars, List.append_assoc, List.cons_append, parseAtom_eq hhead, harray, hparen, hgeneric]
    simp only [hsplit, List.map_cons, List.tail_cons, hlaterArgs, hlaterSeps, htrim, hreada,
      String.ofList_toList]

theorem WellFormed.readsBack {t : DocType} (h : t.WellFormed) : t.ReadsBack := by
  induction h with
  | @name s hs =>
    refine .of_atom (.name hs) rfl ?_
    rw [chars, parseAtom_name hs, String.ofList_toList]
  | @union ms length level members ih =>
    have htop : ∀ m ∈ ms, topOf m '|' = false := by
      intro m hm
      rcases level m hm with hlevel | hlevel
      · cases m with
        | intersection ps => rfl
        | _ => cases hlevel
      · rw [topOf_of_isAtom hlevel]
        decide
    have hsplit := splitTop_joined (by decide : isInert '|' = true) (by rintro rfl; simp at length)
      fun m hm => ⟨members m hm, htop m hm⟩
    have hread : parseUnion (DocType.union ms).chars = .union ms := by
      rw [chars, parseUnion_eq, hsplit, List.length_map, if_pos (by omega), List.map_map]
      refine congrArg DocType.union
        (List.map_congr_left (g := id) fun m hm => ?_) |>.trans (by rw [List.map_id])
      exact (ih m hm).intersection (level m hm)
    refine ⟨hread, fun hlevel => ?_, fun hatom => Bool.noConfusion hatom⟩
    rcases hlevel with hlevel | hlevel <;> cases hlevel
  | @intersection ms length level members ih =>
    have hnested := (WellFormed.intersection length level members).nested
    have hsplit := splitTop_joined (by decide : isInert '&' = true) (by rintro rfl; simp at length)
      fun m hm => ⟨members m hm, by rw [topOf_of_isAtom (level m hm)]; decide⟩
    have hread : parseIntersection (DocType.intersection ms).chars = .intersection ms := by
      rw [chars, parseIntersection_eq, hsplit, List.length_map, if_pos (by omega), List.map_map]
      refine congrArg DocType.intersection
        (List.map_congr_left (g := id) fun m hm => ?_) |>.trans (by rw [List.map_id])
      exact (ih m hm).atom (level m hm)
    refine ⟨?_, fun _ => hread, fun hatom => Bool.noConfusion hatom⟩
    rw [parseUnion_eq, splitTop_of_nested hnested (by decide) (show intersectionTop '|' = false by decide),
      if_neg (by simp), hread]
  | @array t level notNullable element ih =>
    refine .of_atom (.array level notNullable element) rfl ?_
    obtain ⟨c, cs, hchars, -, hne⟩ := element.head
    have hhead : (t.chars ++ ['[', ']']).head? ≠ some '?' := by
      rw [hchars, List.cons_append, List.head?_cons]
      exact fun hc => hne level notNullable (Option.some.inj hc)
    have hnil : t.chars ≠ [] := by rw [hchars]; exact List.cons_ne_nil c cs
    rw [chars, parseAtom_eq hhead, arrayElement?_append hnil (balanced_of_nested element.nested)]
    simp only [ih.atom level]
  | @generic base args seps hbase length hseps hargs ih =>
    exact .of_atom (.generic hbase length hseps hargs) rfl
      (parseAtom_generic hbase length hseps hargs fun a ha => (ih a ha).union)
  | @nullable t level inner ih =>
    refine .of_atom (.nullable level inner) rfl ?_
    rw [chars, parseAtom_nullable, ih.atom level]
  | @paren t inner ih =>
    refine .of_atom (.paren inner) rfl ?_
    rw [chars, List.cons_append, parseAtom_eq (by simp), ← List.cons_append,
      arrayElement?_eq_none (by decide), List.cons_append, parenthesized?_enclosed inner.nested]
    simp only [ih.union]

theorem parseChars_chars {t : DocType} (h : t.WellFormed) : parseChars t.chars = t := by
  rw [parseChars, h.readsBack.union]
  exact if_pos rfl

theorem splitType_chars {t : DocType} (h : t.WellFormed) {rest : List Char}
    (hrest : rest.head?.all isBlank = true) : splitType (t.chars ++ rest) = ⟨t.chars, rest, 0⟩ := by
  have hlength : typeLength 0 none [] (t.chars ++ rest) = (t.chars.length, 0) := by
    have hblank : ∀ c, topOf t c = true → isBlank c = false := by
      intro c hc
      have := unionTop_of_topOf hc
      simp only [unionTop, Bool.and_eq_true, Bool.not_eq_true'] at this
      exact this.1.1
    rw [typeLength_append h.nested (Int.le_refl 0) fun _ => hblank]
    cases rest with
    | nil => simp [typeLength]
    | cons b rest =>
      have hb : isBlank b = true := hrest
      obtain ⟨hopens, hcloses, hquote⟩ := isInert_iff.1 (isInert_of_ne fun _ hd => ne_of_isBlank hb hd)
      -- a colon would have to stand outside of brackets, where there is none
      have hcolon : ¬ (t.chars.reverse ++ []).take 2 = [':', ')'] := by
        intro hbefore
        have hlast : t.chars.getLast? = some ':' := by
          rw [List.append_nil] at hbefore
          have hhead := congrArg List.head? hbefore
          rwa [List.head?_take, if_neg (by decide), List.head?_reverse] at hhead
        rcases h.nested.getLast hlast with hc | hc
        · cases hc
        · exact absurd (unionTop_of_topOf hc) (by decide)
      rw [typeLength]
      simp only [hopens, hcloses, hquote, hb, hcolon, Bool.false_eq_true, if_false, decide_true,
        Bool.and_self, if_true, Nat.zero_add]
  rw [splitType, hlength]
  simp

theorem dropMarks_of_head {c : Char} {cs : List Char} (hamp : c ≠ '&') (hdot : c ≠ '.') :
    TypedText.dropMarks (c :: cs) = c :: cs := by
  simp [TypedText.dropMarks, hamp, hdot]

theorem parseTyped_chars {t : DocType} (h : t.WellFormed) (role : TypeRole)
    (hdollar : t.chars.head? ≠ some '$') {rest : List Char} (hrest : rest.head?.all isBlank = true) :
    TagValue.parseTyped role (t.chars ++ rest) = .typed role ⟨t, String.ofList rest⟩ := by
  obtain ⟨c, cs, hchars, hc, -⟩ := h.head
  have hmark : c ≠ '&' ∧ c ≠ '.' := by
    rcases hc with hc | rfl | rfl
    · exact ⟨ne_of_isTypeChar hc (by decide), ne_of_isTypeChar hc (by decide)⟩
    · exact ⟨by decide, by decide⟩
    · exact ⟨by decide, by decide⟩
  have htrim : trimStart (t.chars ++ rest) = t.chars ++ rest := by
    rw [hchars, List.cons_append]
    exact trimStart_blanks (List.forall_mem_nil _) (isBlank_head hc)
  have hdrop : TypedText.dropMarks (t.chars ++ rest) = t.chars ++ rest := by
    rw [hchars, List.cons_append]
    exact dropMarks_of_head hmark.1 hmark.2
  have hhead : (t.chars ++ rest).head? ≠ some '$' := by
    rwa [hchars, List.cons_append, List.head?_cons, ← List.head?_cons (l := cs), ← hchars]
  have hnil : (t.chars ++ rest).isEmpty = false := by rw [hchars]; rfl
  unfold TagValue.parseTyped
  simp only [htrim, hdrop, hhead, hnil, splitType_chars h hrest, parseChars_chars h, ne_eq,
    not_true_eq_false, decide_false, Bool.or_self, Bool.false_eq_true, if_false]

theorem parseTag_of_role {name : String} {role : TypeRole}
    (h : TagValue.roleOf? (TagValue.plainName (TagValue.baseName name)) = some role) (body : String) :
    TagValue.parse name body = TagValue.parseTyped role body.toList := by
  unfold TagValue.parse
  simp only [h]

/-- Reading the text of a well-formed type gives that type, on its own and at the start of a tag's
text. -/
theorem parse_text {t : DocType} (h : t.WellFormed) :
    parse t.text = t ∧
      ∀ rest : String, t.text.toList.head? ≠ some '$' → rest.toList.head?.all isBlank = true →
        TagValue.parse "param" (t.text ++ rest) = .typed .param ⟨t, rest⟩ := by
  refine ⟨?_, fun rest hdollar hrest => ?_⟩
  · rw [parse, text, String.toList_ofList, parseChars_chars h]
  · rw [text, String.toList_ofList] at hdollar
    have hrole : TagValue.roleOf? (TagValue.plainName (TagValue.baseName "param")) = some .param := by
      decide +kernel
    rw [parseTag_of_role hrole, text, String.toList_append, String.toList_ofList,
      parseTyped_chars h .param hdollar hrest, String.ofList_toList]

/-- Alternatives with a nullable type, an array of two parts and a generic type. -/
theorem parse_text_of_alternatives :
    let t := union [nullable (name "int"), array (paren (intersection [name "A", name "B"])),
      generic "array" [name "string", union [name "C", name "null"]] [",  "]]
    parse "?int|(A&B)[]|array<string,  C|null>" = t ∧
      TagValue.parse "param" "?int|(A&B)[]|array<string,  C|null> $x y" = .typed .param ⟨t, " $x y"⟩ := by
  intro t
  have hname : ∀ s ∈ ["int", "A", "B", "string", "C", "null", "array"],
      isTypeName (String.toList s) = true := by decide +kernel
  have hparts : (intersection [name "A", name "B"]).WellFormed :=
    .intersection (by decide) (by simp [isAtom]) (by
      simpa using ⟨.name (hname "A" (by decide)), .name (hname "B" (by decide))⟩)
  have hsep : IsSeparator ",  " := ⟨[' ', ' '], rfl, by simp [isBlank]⟩
  have hlast : (union [name "C", name "null"]).WellFormed :=
    .union (by decide) (by simp [isAtom]) (by
      simpa using ⟨.name (hname "C" (by decide)), .name (hname "null" (by decide))⟩)
  have ht : t.WellFormed := by
    refine .union (by decide) (by simp [isAtom]) ?_
    simp only [List.forall_mem_cons, List.not_mem_nil, false_imp_iff, implies_true, and_true]
    refine ⟨.nullable rfl (.name (hname "int" (by decide))), .array rfl rfl (.paren hparts), ?_⟩
    refine .generic (hname "array" (by decide)) rfl (by simpa using hsep) ?_
    simpa using ⟨.name (hname "string" (by decide)), hlast⟩
  have htext : t.text = "?int|(A&B)[]|array<string,  C|null>" := by decide +kernel
  obtain ⟨hparse, htag⟩ := parse_text ht
  rw [htext] at hparse htag
  exact ⟨hparse, htag " $x y" (by decide) (by decide)⟩

end PhpStyle.DocType
