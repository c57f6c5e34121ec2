import PhpStyle.Proofs.ParenOwners
import PhpStyle.Proofs.RemovedTokens
import PhpStyle.Proofs.UndisputedFixes
import PhpStyle.Rules.ArrayBlankLines

/-!
# Blank lines before the closing bracket of an array

A blank is spare (`Spare`) if it ends a line between the last other token of an array and its closing
bracket, and an earlier blank there does so too. The fixes of the rule are the removals of the spare
blanks (`exists_finding_of_spare`, `spare_of_finding`). What is removed comes behind the end of a line
and ends one itself (`Spare.endsLine`), so the rest is lexed as before, and of the lexemes that are
left none is spare (`not_spare_without`).
-/

namespace PhpStyle

open Lexer Tokens

namespace Rules.ArrayBlankLines

variable {ls : List (Kind × List Char)} {i j last c : Nat}

/-- A blank that holds the end of a line. -/
def Break (ls : List (Kind × List Char)) (j : Nat) : Prop :=
  ∃ u, ls[j]? = some (.blank, u) ∧ '\n' ∈ u

/-- The array that opens at `i` closes at `c`, and behind `last` it holds nothing but blanks. -/
structure ArrayEnd (ls : List (Kind × List Char)) (i last c : Nat) : Prop where
  opens : ∃ u, ls[i]? = some (.openArray, u)
  pair : (i, c) ∈ bracketPairs 0 [] (ls.map (·.1))
  le : i ≤ last
  lt : last < c
  ink : ∃ l, ls[last]? = some l ∧ l.1 ≠ .blank
  blank : ∀ j, last < j → j < c → ∃ u, ls[j]? = some (.blank, u)

def Spare (ls : List (Kind × List Char)) (j : Nat) : Prop :=
  ∃ i last c, ArrayEnd ls i last c ∧ j < c ∧ Break ls j ∧ ∃ k, last < k ∧ k < j ∧ Break ls k

theorem ArrayEnd.closes (h : ArrayEnd ls i last c) : ∃ u, ls[c]? = some (.closeArray, u) := by
  obtain ⟨u, hu⟩ := h.opens
  obtain ⟨o, k, ho, hk, hok⟩ := ((bracketPairs_spec 0 [] (ls.map (·.1)) rfl .nil).isPair _ h.pair).kinds
  rw [List.getElem?_map, hu] at ho
  cases ho
  cases hok
  rw [List.getElem?_map] at hk
  obtain ⟨l, hl, hkind⟩ := Option.map_eq_some_iff.1 hk
  obtain ⟨k, v⟩ := l
  cases hkind
  exact ⟨v, hl⟩

/-- An array has one end, and no two arrays have the same. -/
theorem ArrayEnd.unique {i' last' c' : Nat} (h : ArrayEnd ls i last c) (h' : ArrayEnd ls i' last' c')
    (hj : last < j) (hjc : j < c) (hj' : last' < j) (hjc' : j < c') : i = i' := by
  obtain ⟨u, hu⟩ := h.closes
  obtain ⟨u', hu'⟩ := h'.closes
  have hspec := bracketPairs_spec 0 [] (ls.map (·.1)) rfl .nil
  rcases Nat.lt_trichotomy c c' with hlt | rfl | hlt
  · obtain ⟨v, hv⟩ := h'.blank c (by omega) hlt
    rw [hu] at hv
    cases hv
  · by_contra hne
    rcases hspec.closesBefore_or h.pair h'.pair (by simpa using hne) with hb | hb
    · exact Nat.lt_irrefl c hb.1
    · exact Nat.lt_irrefl c hb.1
  · obtain ⟨v, hv⟩ := h.blank c' (by omega) hlt
    rw [hu'] at hv
    cases hv

theorem Break.endsLine {s : Lexer} {cs : List Char} (hrun : s.run cs = ls) (h : Break ls j) :
    EndsLine ls[j]? := by
  obtain ⟨u, hu, hmem⟩ := h
  have hlast : '\n' ∉ u.dropLast := by
    have hall := forall_mem_run (Q := fun k cs => k.isBlank = true → '\n' ∉ cs.dropLast)
      (fun s cs hne hb => s.newline_not_mem_cut hne hb) s cs
    rw [hrun] at hall
    exact hall _ (List.mem_of_getElem? hu) rfl
  have hne : u ≠ [] := List.ne_nil_of_mem hmem
  have hsplit := List.dropLast_append_getLast hne
  rw [← hsplit] at hmem
  rcases List.mem_append.1 hmem with hmem | hmem
  · exact absurd hmem hlast
  · rw [← List.mem_singleton.1 hmem] at hsplit
    exact ⟨u.dropLast, by rw [hsplit, hu]⟩

/-- A spare blank comes behind a blank that ends a line. -/
theorem Spare.endsLine {s : Lexer} {cs : List Char} (hrun : s.run cs = ls) (h : Spare ls j) :
    ∃ n, j = n + 1 ∧ EndsLine ls[n]? ∧ EndsLine ls[n + 1]? := by
  obtain ⟨i, last, c, harray, hjc, hbreak, k, hk, hkj, -⟩ := h
  obtain ⟨n, rfl⟩ : ∃ n, j = n + 1 := ⟨j - 1, by omega⟩
  refine ⟨n, rfl, ?_, hbreak.endsLine hrun⟩
  obtain ⟨u, hu⟩ := harray.blank n (by omega) (by omega)
  obtain ⟨v, hv, -⟩ := hbreak
  obtain ⟨s', hrun'⟩ := exists_run_drop hrun n
  rw [drop_eq_cons hu, drop_eq_cons hv] at hrun'
  obtain ⟨b, rfl⟩ := List.getLast?_eq_some_iff.1 (line_end_of_blanks hrun')
  exact ⟨b, hu⟩

theorem ArrayEnd.not_line_end {s : Lexer} {cs : List Char} (hrun : s.run cs = ls)
    (h : ArrayEnd ls i last c) {l : Kind × List Char} (hl : ls[last]? = some l) :
    l.2.getLast? ≠ some '\n' := by
  intro hline
  obtain ⟨l', hl', hink⟩ := h.ink
  obtain rfl : l = l' := Option.some.inj (hl.symm.trans hl')
  obtain ⟨m, hm, hkind⟩ : ∃ m, ls[last + 1]? = some m ∧ (m.1 = .blank ∨ m.1.isBracket = true) := by
    rcases Nat.lt_or_eq_of_le (Nat.succ_le_of_lt h.lt) with hlt | heq
    · obtain ⟨u, hu⟩ := h.blank (last + 1) (Nat.lt_succ_self last) hlt
      exact ⟨_, hu, .inl rfl⟩
    · obtain ⟨u, hu⟩ := h.closes
      rw [← heq] at hu
      exact ⟨_, hu, .inr rfl⟩
  obtain ⟨s', hrun'⟩ := exists_run_drop hrun last
  rw [drop_eq_cons hl, drop_eq_cons hm] at hrun'
  exact hink (line_end_of_run hrun' hkind hline)

section Without

variable {gone : Nat → Bool}

theorem Break.oldPlace (h : Break (without gone ls) j) : Break ls (oldPlace gone ls j) := by
  obtain ⟨u, hu, hmem⟩ := h
  exact ⟨u, (getElem?_oldPlace hu).1, hmem⟩

theorem ArrayEnd.oldPlace (hgone : ∀ j, gone j = true → ∃ u, ls[j]? = some (.blank, u))
    (h : ArrayEnd (without gone ls) i last c) :
    ArrayEnd ls (oldPlace gone ls i) (oldPlace gone ls last) (oldPlace gone ls c) := by
  obtain ⟨u, hu⟩ := h.opens
  obtain ⟨v, hv⟩ := h.closes
  obtain ⟨l, hl, hink⟩ := h.ink
  refine ⟨⟨u, (getElem?_oldPlace hu).1⟩, oldPlace_pairs ?_ h.pair, ?_, oldPlace_lt h.lt hv,
    ⟨l, (getElem?_oldPlace hl).1, hink⟩, ?_⟩
  · intro j m hm hbracket
    by_contra hne
    obtain ⟨w, hw⟩ := hgone j (Bool.not_eq_false _ ▸ hne)
    rw [hm] at hw
    cases hw
    cases hbracket
  · rcases Nat.lt_or_eq_of_le h.le with hlt | rfl
    · exact Nat.le_of_lt (oldPlace_lt hlt hl)
    · exact Nat.le_refl _
  · intro j hj hjc
    cases hgonej : gone j with
    | true => exact hgone j hgonej
    | false =>
      obtain ⟨hlt, -⟩ := List.getElem?_eq_some_iff.1 (getElem?_oldPlace hv).1
      obtain ⟨m, hm⟩ : ∃ m, ls[j]? = some m := ⟨_, List.getElem?_eq_getElem (by omega)⟩
      obtain ⟨k, hk, rfl⟩ := exists_oldPlace hm hgonej
      obtain ⟨w, hw⟩ := h.blank k (lt_of_oldPlace_lt hl hk hj) (lt_of_oldPlace_lt hk hv hjc)
      exact ⟨w, (getElem?_oldPlace hw).1⟩

theorem not_spare_without (hgone : ∀ j, gone j = true ↔ Spare ls j) : ¬ Spare (without gone ls) j := by
  rintro ⟨i, last, c, harray, hjc, hbreak, k, hk, hkj, hfirst⟩
  have hblank : ∀ j, gone j = true → ∃ u, ls[j]? = some (.blank, u) := by
    intro j hj
    obtain ⟨-, -, -, -, -, ⟨u, hu, -⟩, -⟩ := (hgone j).1 hj
    exact ⟨u, hu⟩
  obtain ⟨u, hu, -⟩ := id hbreak
  obtain ⟨v, hv, -⟩ := id hfirst
  obtain ⟨w, hw⟩ := harray.closes
  have hspare : Spare ls (oldPlace gone ls j) :=
    ⟨_, _, _, harray.oldPlace hblank, oldPlace_lt hjc hw, hbreak.oldPlace, _, oldPlace_lt hk hv,
      oldPlace_lt hkj hu, hfirst.oldPlace⟩
  have := (getElem?_oldPlace hu).2
  rw [(hgone _).2 hspare] at this
  cases this

end Without

section Findings

variable {source : String}

theorem any_break_iff : ((ofSource source).get? j).any (fun t => t.kind == .blank && t.hasNewline) = true ↔
    Break (({} : Lexer).run source.toList) j := by
  rw [Break, getElem?_lexemes]
  cases (ofSource source).get? j with
  | none => simp
  | some t =>
    simp only [Option.any_some, Bool.and_eq_true, beq_iff_eq, Token.hasNewline, List.contains_iff_mem,
      Option.map_some, Option.some.injEq, Prod.mk.injEq]
    constructor
    · rintro ⟨hk, hmem⟩
      exact ⟨_, ⟨hk, rfl⟩, hmem⟩
    · rintro ⟨u, ⟨hk, rfl⟩, hmem⟩
      exact ⟨hk, hmem⟩

theorem mem_drop_one_iff {ns : List Nat} (h : ns.Pairwise (· < ·)) :
    j ∈ ns.drop 1 ↔ j ∈ ns ∧ ∃ k ∈ ns, k < j := by
  cases ns with
  | nil => simp
  | cons n ns =>
    obtain ⟨hlt, hns⟩ := List.pairwise_cons.1 h
    rw [List.drop_succ_cons, List.drop_zero]
    constructor
    · intro hj
      exact ⟨List.mem_cons_of_mem n hj, n, List.mem_cons_self, hlt j hj⟩
    · rintro ⟨hj, k, hk, hkj⟩
      rcases List.mem_cons.1 hj with rfl | hj
      · rcases List.mem_cons.1 hk with rfl | hk
        · exact absurd hkj (Nat.lt_irrefl k)
        · exact absurd hkj (Nat.lt_asymm (hlt k hk))
      · exact hj

theorem mem_blankLines (hend : ((ofSource source).content last).toList.getLast? ≠ some '\n') :
    j ∈ blankLines (ofSource source) last c ↔
      j < c ∧ Break (({} : Lexer).run source.toList) j ∧
        ∃ k, last < k ∧ k < j ∧ Break (({} : Lexer).run source.toList) k := by
  have hmem : ∀ k, k ∈ (List.range' (last + 1) (c - (last + 1))).filter (fun i =>
      ((ofSource source).get? i).any fun t => t.kind == .blank && t.hasNewline) ↔
        last < k ∧ k < c ∧ Break (({} : Lexer).run source.toList) k := by
    intro k
    rw [List.mem_filter, List.mem_range'_1, any_break_iff, ← and_assoc]
    refine and_congr_left fun _ => ?_
    omega
  rw [blankLines, if_neg (by simpa using hend),
    mem_drop_one_iff (List.Pairwise.filter _ List.pairwise_lt_range'), hmem]
  constructor
  · rintro ⟨⟨hj, hjc, hbreak⟩, k, hk, hkj⟩
    obtain ⟨hk, -, hfirst⟩ := (hmem k).1 hk
    exact ⟨hjc, hbreak, k, hk, hkj, hfirst⟩
  · rintro ⟨hjc, hbreak, k, hk, hkj, hfirst⟩
    exact ⟨⟨by omega, hjc, hbreak⟩, k, (hmem k).2 ⟨hk, by omega, hfirst⟩, hkj⟩

theorem ArrayEnd.mem_blankLines (h : ArrayEnd (({} : Lexer).run source.toList) i last c) :
    j ∈ blankLines (ofSource source) last c ↔
      j < c ∧ Break (({} : Lexer).run source.toList) j ∧
        ∃ k, last < k ∧ k < j ∧ Break (({} : Lexer).run source.toList) k := by
  refine ArrayBlankLines.mem_blankLines ?_
  obtain ⟨l, hl, -⟩ := h.ink
  rw [content_ofSource hl]
  exact h.not_line_end rfl hl

theorem mem_pairs_of_openArray {t : Token} (ht : (ofSource source).get? i = some t)
    (hk : t.kind = .openArray) (hc : t.links.bracketCloser = some c) :
    (i, c) ∈ (ofSource source).pairs := by
  have hlinks : ((ofSource source).bracketLinks i).2 = some c := by
    simp only [bracketLinks, links, ht, Option.map_some, Option.getD_some, Links.brackets, hc]
  have hkind : (ofSource source).kinds[i]? = some .openArray := by
    rw [getElem?_kinds, kind?, ht, Option.map_some, hk]
  rcases bracketLinks_cases source i with ⟨p, hp, hi, hcarries⟩ | hnone
  · rw [hcarries] at hlinks
    cases hlinks
    rcases hi with rfl | rfl
    · exact hp
    · -- an opening bracket closes no pair
      obtain ⟨o, k, -, hclose, hok⟩ := ((pairs_spec _).isPair p hp).kinds
      cases hkind.symm.trans hclose
      cases o <;> cases hok
  · rw [hnone] at hlinks
    cases hlinks

theorem arrayEnd_of_finding {f : Finding} (hkind : (ofSource source).kind? i = some .openArray)
    (h : finding? (ofSource source) i = some f) :
    ∃ last c, ArrayEnd (({} : Lexer).run source.toList) i last c ∧
      blankLines (ofSource source) last c ≠ [] ∧
      f.fix = some ((blankLines (ofSource source) last c).map Edit.remove) := by
  simp only [finding?, Option.bind_eq_bind, Option.bind_eq_some_iff, Option.guard_eq_some',
    exists_const] at h
  obtain ⟨opener, hopener, c, hc, closer, hcloser, -, last, hlast, hspare, heq⟩ := h
  cases heq
  have hopen : opener.kind = .openArray := by
    rw [kind?, hopener] at hkind
    exact Option.some.inj hkind
  have hpair := mem_pairs_of_openArray hopener hopen hc
  have hic := ((pairs_spec _).isPair _ hpair).lt
  have hsize := isPair_bounds ((pairs_spec _).isPair _ hpair)
  rw [findPrevious] at hlast
  obtain ⟨hle, hink, hblank⟩ := scanDown_eq_some hlast
  simp only at hle hblank hic hsize
  refine ⟨last, c, ⟨⟨_, by rw [getElem?_lexemes, hopener, Option.map_some, hopen]⟩, ?_, ?_, ?_, ?_, ?_⟩,
    ?_, rfl⟩
  · rwa [pairs, kinds_eq_lexemes] at hpair
  · by_contra hlt
    refine hblank i (by omega) (by omega) ?_
    rw [hopener, Option.any_some, hopen]
    rfl
  · omega
  · obtain ⟨t, ht, hkind⟩ := (Option.any_eq_true _ _).1 hink
    exact ⟨_, by rw [getElem?_lexemes, ht]; rfl, by simpa using hkind⟩
  · intro j hj hjc
    have hnot := hblank j hj (by omega)
    have hlt : j < (ofSource source).size := by omega
    rw [getElem?_lexemes]
    obtain ⟨t, ht⟩ : ∃ t, (ofSource source).get? j = some t := ⟨_, Array.getElem?_eq_getElem hlt⟩
    rw [ht, Option.any_some] at hnot
    refine ⟨t.content.toList, ?_⟩
    rw [ht, Option.map_some, show t.kind = .blank by simpa using hnot]
  · simpa using hspare

theorem exists_finding (h : ArrayEnd (({} : Lexer).run source.toList) i last c)
    (hne : blankLines (ofSource source) last c ≠ []) :
    ∃ f, finding? (ofSource source) i = some f ∧
      f.fix = some ((blankLines (ofSource source) last c).map Edit.remove) := by
  obtain ⟨u, hu⟩ := h.opens
  obtain ⟨v, hv⟩ := h.closes
  obtain ⟨l, hl, hink⟩ := h.ink
  obtain ⟨opener, hopener, -⟩ := get?_of_lexeme hu
  obtain ⟨closer, hcloser, -⟩ := get?_of_lexeme hv
  obtain ⟨t, ht, hkind, -⟩ := get?_of_lexeme hl
  have hlink : opener.links.bracketCloser = some c := by
    have hpair : (i, c) ∈ (ofSource source).pairs := by
      rw [pairs, kinds_eq_lexemes]
      exact h.pair
    have hcarries : (ofSource source).bracketLinks i = (some i, some c) :=
      carriesPair_of_mem hpair (.inl rfl)
    rw [bracketLinks, links, hopener] at hcarries
    exact congrArg Prod.snd hcarries
  -- a line ends between the last token and the closing bracket
  have hline : closer.line ≠ opener.line := by
    intro heq
    obtain ⟨j, hj⟩ := List.exists_mem_of_ne_nil _ hne
    obtain ⟨hjc, ⟨w, hw, hmem⟩, k, hk, hkj, -⟩ := h.mem_blankLines.1 hj
    have hcount : (spelled ((({} : Lexer).run source.toList).take c)).count '\n' =
        (spelled ((({} : Lexer).run source.toList).take i)).count '\n' := by
      have hc := line_ofSource hcloser
      have hi := line_ofSource hopener
      omega
    have hle := h.le
    exact newline_not_mem_of_count hcount (by omega) hjc hw hmem
  have hlast : (ofSource source).findPrevious (fun t => t.kind != .blank) (c - 1) (some i) =
      some last := by
    have hsize := lt_size_of_get? hcloser
    have hle := h.le
    have hlt := h.lt
    refine scanDown_eq_of (by omega) ?_ ?_ fun k hk hkc => ?_
    · simp only [Option.getD_some]
      omega
    · rw [ht, Option.any_some, hkind]
      simpa using hink
    · obtain ⟨w, hw⟩ := h.blank k hk (by omega)
      obtain ⟨b, hb, hbkind, -⟩ := get?_of_lexeme hw
      rw [hb, Option.any_some, hbkind]
      simp
  have hsome : (blankLines (ofSource source) last c).isEmpty = false := List.isEmpty_eq_false_iff.2 hne
  rw [finding?]
  simp only [hopener, hlink, hcloser, hlast, Option.bind_eq_bind, Option.bind_some]
  simp only [guard, hline, ne_eq, not_false_eq_true, if_true, hsome, Bool.not_false]
  exact ⟨_, rfl, rfl⟩

/-! ### Fixes -/

variable {site : Site}

theorem mem_places_iff (hsite : site.tokens = ofSource source) {p : Token × Nat} :
    p ∈ site.places info ↔ (ofSource source).get? p.2 = some p.1 ∧ p.1.kind = .openArray := by
  rw [Site.places, List.mem_filter, List.mem_zipIdx_iff_getElem?, hsite, Array.getElem?_toList]
  refine and_congr_right fun _ => ?_
  simp [info]

theorem mem_fixes_iff (hsite : site.tokens = ofSource source) {es : List Edit} :
    es ∈ site.fixes findings (site.places info) ↔
      ∃ i last c, ArrayEnd (({} : Lexer).run source.toList) i last c ∧
        blankLines (ofSource source) last c ≠ [] ∧
        es = (blankLines (ofSource source) last c).map Edit.remove := by
  simp only [Site.fixes, List.mem_flatMap, List.mem_filterMap, findings, Option.mem_toList, hsite]
  constructor
  · rintro ⟨p, hp, f, hf, hes⟩
    obtain ⟨hget, hkind⟩ := (mem_places_iff hsite).1 hp
    obtain ⟨last, c, harray, hne, hfix⟩ := arrayEnd_of_finding (by rw [kind?, hget, ← hkind]; rfl) hf
    exact ⟨p.2, last, c, harray, hne, Option.some.inj (hes.symm.trans hfix)⟩
  · rintro ⟨i, last, c, harray, hne, hes⟩
    obtain ⟨f, hf, hfix⟩ := exists_finding harray hne
    obtain ⟨u, hu⟩ := harray.opens
    obtain ⟨t, ht, hkind, -⟩ := get?_of_lexeme hu
    exact ⟨(t, i), (mem_places_iff hsite).2 ⟨ht, hkind⟩, f, hf, hes ▸ hfix⟩

theorem touches_map_remove {ns : List Nat} : Edit.touches (ns.map Edit.remove) j = true ↔ j ∈ ns := by
  simp [Edit.touches, Edit.remove, Edit.index]

theorem touches_fixes_iff (hsite : site.tokens = ofSource source) :
    Edit.touches (site.fixes findings (site.places info)).flatten j = true ↔
      Spare (({} : Lexer).run source.toList) j := by
  rw [Edit.touches_flatten]
  constructor
  · rintro ⟨es, hes, hj⟩
    obtain ⟨i, last, c, harray, -, heq⟩ := (mem_fixes_iff hsite).1 hes
    rw [heq, touches_map_remove] at hj
    exact ⟨i, last, c, harray, harray.mem_blankLines.1 hj⟩
  · rintro ⟨i, last, c, harray, hspare⟩
    have hj := harray.mem_blankLines.2 hspare
    exact ⟨_, (mem_fixes_iff hsite).2 ⟨i, last, c, harray, List.ne_nil_of_mem hj, rfl⟩,
      touches_map_remove.2 hj⟩

theorem removes_fixes (hsite : site.tokens = ofSource source) :
    Edit.Removes (site.fixes findings (site.places info)).flatten := by
  intro e he
  obtain ⟨es, hes, he⟩ := List.mem_flatten.1 he
  obtain ⟨i, last, c, -, -, heq⟩ := (mem_fixes_iff hsite).1 hes
  rw [heq] at he
  obtain ⟨j, -, rfl⟩ := List.mem_map.1 he
  rfl

theorem placed_fixes (hsite : site.tokens = ofSource source) :
    ∀ es ∈ site.fixes findings (site.places info), Edit.Placed (ofSource source) es := by
  intro es hes
  obtain ⟨i, last, c, harray, hne, heq⟩ := (mem_fixes_iff hsite).1 hes
  rw [heq]
  refine ⟨by simpa using hne, fun e he => ?_⟩
  obtain ⟨j, hj, rfl⟩ := List.mem_map.1 he
  obtain ⟨-, ⟨u, hu, -⟩, -⟩ := harray.mem_blankLines.1 hj
  obtain ⟨t, ht, -⟩ := get?_of_lexeme hu
  exact lt_size_of_get? ht

theorem apart_fixes (hsite : site.tokens = ofSource source) :
    (site.fixes findings (site.places info)).Pairwise Edit.Apart := by
  have hplaces : (site.places info).Pairwise fun p q => p.2 ≠ q.2 := by
    refine List.Pairwise.filter _ (List.pairwise_map.1 ?_)
    rw [List.zipIdx_map_snd]
    exact List.nodup_range'
  have hone : ∀ p ∈ site.places info, ∀ es ∈ (findings site p.2).filterMap (·.fix),
      ∃ last c, ArrayEnd (({} : Lexer).run source.toList) p.2 last c ∧
        ∀ j, Edit.touches es j = true → last < j ∧ j < c := by
    intro p hp es hes
    obtain ⟨hget, hkind⟩ := (mem_places_iff hsite).1 hp
    obtain ⟨f, hf, hfix⟩ := List.mem_filterMap.1 hes
    rw [findings, hsite] at hf
    obtain ⟨last, c, harray, -, heq⟩ :=
      arrayEnd_of_finding (by rw [kind?, hget, ← hkind]; rfl) (Option.mem_toList.1 hf)
    have hes := Option.some.inj (hfix.symm.trans heq)
    refine ⟨last, c, harray, fun j hj => ?_⟩
    rw [hes, touches_map_remove] at hj
    obtain ⟨hjc, -, k, hk, hkj, -⟩ := harray.mem_blankLines.1 hj
    exact ⟨by omega, hjc⟩
  refine List.pairwise_flatMap.2 ⟨fun p _ => ?_, hplaces.imp_of_mem fun {p q} hp hq hne es hes es' hes' => ?_⟩
  · rw [findings]
    cases finding? site.tokens p.2 with
    | none => exact .nil
    | some f => cases hf : f.fix <;> simp [hf]
  · intro j hj hj'
    obtain ⟨last, c, harray, hbounds⟩ := hone p hp es hes
    obtain ⟨last', c', harray', hbounds'⟩ := hone q hq es' hes'
    exact hne (harray.unique harray' (hbounds j hj).1 (hbounds j hj).2 (hbounds' j hj').1
      (hbounds' j hj').2)

theorem run_without_spare {gone : Nat → Bool}
    (hgone : ∀ j, gone j = true ↔ Spare (({} : Lexer).run source.toList) j) :
    Thins (({} : Lexer).run source.toList) (without gone (({} : Lexer).run source.toList)) := by
  have hline : ∀ j, gone j = true → ∃ n, j = n + 1 ∧ EndsLine (({} : Lexer).run source.toList)[n]? ∧
      EndsLine (({} : Lexer).run source.toList)[n + 1]? := fun j hj => ((hgone j).1 hj).endsLine rfl
  refine thins_without ?_ fun j hj => ?_
  · by_contra hzero
    obtain ⟨n, hn, -⟩ := hline 0 (Bool.not_eq_false _ ▸ hzero)
    cases hn
  · obtain ⟨n, hn, hends⟩ := hline (j + 1) hj
    cases hn
    exact hends

end Findings

end Rules.ArrayBlankLines

/-- The tokens other than blanks, each with the text before it on its line. -/
def Tokens.inked (ts : Tokens) : List (Kind × List Char × List Char) :=
  Lexer.inked [] (ts.items.toList.map fun t => (t.kind, t.content.toList))

theorem Tokens.inked_ofSource (source : String) :
    (ofSource source).inked = Lexer.inked [] (({} : Lexer).run source.toList) := by
  have hlexemes : (ofSource source).items.toList.map (fun t => (t.kind, t.content.toList)) =
      ({} : Lexer).run source.toList := by
    refine List.ext_getElem? fun i => ?_
    rw [getElem?_lexemes, List.getElem?_map, Array.getElem?_toList]
    rfl
  rw [inked, hlexemes]

namespace Analyzer

open Rules.ArrayBlankLines

/-- A pass of the rule alone takes out blank lines and nothing else, and all of those before the
closing bracket of an array: no changeset meets another, every other token keeps its place in the order
and the text before it on its line, and a further pass reports nothing. -/
theorem blank_lines_cleared {a : Analyzer} {s : Option Severity}
    (hrules : a.rules = [Rules.ArrayBlankLines.rule.withSeverity s])
    (henabled : a.config.isEnabled info.name = true) (disk : Disk) {r : Round}
    (hfixing : r.fixing = true) (hon : info.name ∉ r.run.disabled)
    (hloud : Text.occurs Allowance.marker r.text.toList = false) :
    (a.closing disk r).desk.buffer.conflicts = 0 ∧
      (Tokens.ofSource (a.closing disk r).desk.buffer.text).inked = (Tokens.ofSource r.text).inked ∧
      ∀ r' : Round, r'.text = (a.closing disk r).desk.buffer.text →
        (a.closing disk r').desk.violations = [] := by
  have hsite := @tokens_siteOf a disk r
  have hsettled := settled_closing disk hrules henabled hfixing hon hloud
    (placed_fixes hsite) (apart_fixes hsite)
  have hgone : ∀ j, _ := fun j => touches_fixes_iff (j := j) hsite
  have hremoves := removes_fixes hsite
  have htext := hsettled.refines.text_eq
  refine ⟨hsettled.conflicts, ?_⟩
  clear hsettled
  simp only at htext
  generalize (a.closing disk r).desk.buffer.text = text at htext ⊢
  generalize ((a.siteOf disk r).fixes findings ((a.siteOf disk r).places info)).flatten = es at *
  have hthins := run_without_spare hgone
  have hrun : ({} : Lexer).run text.toList =
      without (Edit.touches es) (({} : Lexer).run r.text.toList) := by
    rw [htext, Tokens.toList_edited_removes r.text hremoves]
    refine hthins.run [] ?_
    rw [List.nil_append, spelled_run]
  refine ⟨?_, fun r' hr' => ?_⟩
  · rw [Tokens.inked_ofSource, Tokens.inked_ofSource, hrun]
    exact hthins.inked []
  · refine violations_closing disk hrules fun i hi => ?_
    rw [hr'] at hi
    rw [findings, tokens_siteOf, hr']
    cases hf : finding? (Tokens.ofSource text) i with
    | none => rfl
    | some f =>
      exfalso
      have hkind : (Tokens.ofSource text).kind? i = some .openArray := by
        obtain ⟨k, hk, hmem⟩ := Tokens.kindIs_iff.1 hi
        rw [← Tokens.getElem?_kinds, hk]
        simpa [info] using hmem
      obtain ⟨last, c, harray, hne, -⟩ := arrayEnd_of_finding hkind hf
      obtain ⟨j, hj⟩ := List.exists_mem_of_ne_nil _ hne
      have hspare : Spare (({} : Lexer).run text.toList) j :=
        ⟨i, last, c, harray, harray.mem_blankLines.1 hj⟩
      rw [hrun] at hspare
      exact not_spare_without hgone hspare

/-- Of nested arrays each loses its blank lines; the line with the comment stays. -/
theorem nested_arrays_cleared :
    let a : Analyzer := ⟨⟨"/"⟩, [Rules.ArrayBlankLines.rule], [], {}, true, 50⟩
    let source := "<?php\n$a = [\n  [1, // one\n\n  ],\n \n\n];\n"
    let r : Round := ⟨⟨"a.php"⟩, source, true, a.start, []⟩
    (a.closing {} r).desk.buffer.text = "<?php\n$a = [\n  [1, // one\n  ],\n];\n" ∧
    (a.closing {} r).desk.buffer.conflicts = 0 ∧
      (Tokens.ofSource (a.closing {} r).desk.buffer.text).inked = (Tokens.ofSource r.text).inked ∧
      ∀ r' : Round, r'.text = (a.closing {} r).desk.buffer.text →
        (a.closing {} r').desk.violations = [] := by
  intro a source r
  refine ⟨by decide +kernel, ?_⟩
  exact blank_lines_cleared (s := none) rfl (by decide) {} rfl (by decide) (by decide +kernel)

end Analyzer

end PhpStyle
