import PhpStyle.Proofs.FixLoop

/-!
# Confined edits

`P i s` says that `s` may stand for the token at `i`. If all edits that the rules of a pass propose
lead from such texts to such texts, then every text that the pass stages or commits is one
(`confined_runPass`).
-/

namespace PhpStyle

variable {P : Nat → String → Prop} {n : Nat}

/-- The edit leads from admissible texts to admissible ones. -/
def Edit.Keeps (P : Nat → String → Prop) (e : Edit) : Prop :=
  ∀ s, P e.index s → P e.index (e.apply s)

/-- All edits of the finding's fix keep texts admissible. -/
def Finding.Keeps (P : Nat → String → Prop) (f : Finding) : Prop :=
  ∀ es, f.fix = some es → ∀ e ∈ es, e.Keeps P

namespace EditBuffer

/-- There are `n` texts, and those of the buffer and of its open changeset are admissible. -/
structure Confined (P : Nat → String → Prop) (n : Nat) (b : EditBuffer) : Prop where
  size_eq : b.contents.size = n
  contents : ∀ i s, b.contents[i]? = some s → P i s
  staged : ∀ st, b.staged = some st → ∀ p ∈ st, P p.1 p.2

theorem mem_setStaged {i : Nat} {text : String} {st : List (Nat × String)} {p : Nat × String}
    (h : p ∈ setStaged i text st) : p = (i, text) ∨ p ∈ st := by
  induction st with
  | nil => exact .inl (List.mem_singleton.1 h)
  | cons q st ih =>
    rw [setStaged] at h
    split at h
    · rcases List.mem_cons.1 h with h | h
      · exact .inl h
      · exact .inr (List.mem_cons_of_mem q h)
    · rcases List.mem_cons.1 h with rfl | h
      · exact .inr List.mem_cons_self
      · rcases ih h with h | h
        · exact .inl h
        · exact .inr (List.mem_cons_of_mem q h)

theorem mem_of_lookup {i : Nat} {s : String} {st : List (Nat × String)} (h : st.lookup i = some s) :
    (i, s) ∈ st := by
  induction st with
  | nil => cases h
  | cons p st ih =>
    rw [lookup_cons_eq_ite] at h
    split at h
    · rename_i hi
      cases h
      rw [hi]
      exact List.mem_cons_self
    · exact List.mem_cons_of_mem p (ih h)

namespace Confined

variable {b b' : EditBuffer}

theorem ofTokens {ts : Tokens} (h : ∀ i, P i (ts.content i)) (enabled : Bool) :
    (EditBuffer.ofTokens ts enabled).Confined P ts.size := by
  refine ⟨Array.size_map, fun i s hs => ?_, nofun⟩
  have hi := h i
  rw [EditBuffer.ofTokens, Array.getElem?_map] at hs
  rwa [Tokens.content, Tokens.get?, hs, Option.getD_some] at hi

theorem rollback (h : b.Confined P n) : b.rollback.Confined P n :=
  ⟨h.size_eq, h.contents, nofun⟩

theorem openChangeset (h : b.Confined P n) (ho : b.openChangeset = .ok b') : b'.Confined P n := by
  obtain ⟨-, rfl⟩ := openChangeset_eq_ok ho
  refine ⟨h.size_eq, h.contents, fun st hst p hp => ?_⟩
  cases hst
  cases hp

theorem stage (h : b.Confined P n) {e : Edit} (he : e.Keeps P) (hs : b.stage e = .ok b') :
    b'.Confined P n := by
  obtain ⟨base, st, hbase, hst, rfl⟩ := stage_eq_ok hs
  refine ⟨h.size_eq, h.contents, fun st' hst' p hp => ?_⟩
  cases hst'
  rcases mem_setStaged hp with rfl | hp
  · refine he _ ?_
    cases hlookup : st.lookup e.index with
    | none => exact h.contents _ _ hbase
    | some s => exact h.staged st hst _ (mem_of_lookup hlookup)
  · exact h.staged st hst p hp

theorem setIfInBounds {contents : Array String} (h : ∀ i s, contents[i]? = some s → P i s) {j : Nat}
    {text : String} (hj : P j text) (i : Nat) (s : String)
    (hi : (contents.setIfInBounds j text)[i]? = some s) : P i s := by
  rw [Array.getElem?_setIfInBounds] at hi
  split at hi
  · rename_i hij
    subst hij
    split at hi
    · cases hi
      exact hj
    · cases hi
  · exact h i s hi

theorem applyStaged {contents : Array String} (hcontents : ∀ i s, contents[i]? = some s → P i s)
    {st : List (Nat × String)} (hst : ∀ p ∈ st, P p.1 p.2) :
    (applyStaged contents st).size = contents.size ∧
      ∀ i s, (EditBuffer.applyStaged contents st)[i]? = some s → P i s := by
  induction st generalizing contents with
  | nil => exact ⟨rfl, hcontents⟩
  | cons p st ih =>
    rw [EditBuffer.applyStaged, List.foldl_cons, ← EditBuffer.applyStaged]
    have hset := setIfInBounds hcontents (hst p List.mem_cons_self)
    obtain ⟨hsize, hrest⟩ := ih hset fun q hq => hst q (List.mem_cons_of_mem p hq)
    exact ⟨hsize.trans Array.size_setIfInBounds, hrest⟩

theorem commit (h : b.Confined P n) {committed : Bool} (hc : b.commit = .ok (committed, b')) :
    b'.Confined P n := by
  unfold EditBuffer.commit at hc
  split at hc
  · cases hc
  · rename_i st hst
    simp only at hc
    split at hc
    · cases hc
      exact h.rollback
    split at hc
    · cases hc
      exact ⟨h.size_eq, h.contents, nofun⟩
    · cases hc
      have happly := applyStaged h.contents (h.staged st hst)
      exact ⟨happly.1.trans h.size_eq, happly.2, nofun⟩

theorem run_ofEdits (h : b.Confined P n) {es : List Edit} (hes : ∀ e ∈ es, e.Keeps P) :
    ((FixScript.ofEdits es).run b).2.Confined P n := by
  induction es generalizing b with
  | nil => exact h
  | cons e es ih =>
    rw [FixScript.ofEdits, FixScript.run]
    cases hs : b.stage e with
    | error _ => exact h
    | ok b' =>
      exact ih (h.stage (hes e List.mem_cons_self) hs) fun e he => hes e (List.mem_cons_of_mem _ he)

theorem changeset {ε : Type} (lift : EditError → ε) {body : EditBuffer → Except ε Unit × EditBuffer}
    (hbody : ∀ b : EditBuffer, b.Confined P n → (body b).2.Confined P n) (h : b.Confined P n) :
    (b.changeset lift body).2.Confined P n := by
  unfold EditBuffer.changeset
  split
  · exact h
  · rename_i opened ho
    have hafter := hbody opened (h.openChangeset ho)
    split
    · rename_i e after hrun
      rw [hrun] at hafter
      exact hafter.rollback
    · rename_i after hrun
      rw [hrun] at hafter
      split
      · exact hafter
      · rename_i hc
        exact hafter.commit hc

end Confined

end EditBuffer

open EditBuffer

theorem ActiveRule.confined_run_ofFindings (r : ActiveRule) (site : Site) {fs : List Finding}
    (hfs : ∀ f ∈ fs, f.Keeps P) {d : Desk} (h : d.buffer.Confined P n) :
    (r.run site (.ofFindings fs) d).2.buffer.Confined P n := by
  induction fs generalizing d with
  | nil => exact h
  | cons f fs ih =>
    have ih := @ih fun f hf => hfs f (List.mem_cons_of_mem _ hf)
    rw [RuleScript.ofFindings]
    split
    · rw [run]
      split
      · exact ih h
      · exact ih h
    · rename_i edits hfix
      have hedits := hfs f List.mem_cons_self edits hfix
      rw [run]
      split
      · exact ih h
      split
      · have hchange : (d.buffer.changeset RuleError.edit (FixScript.ofEdits edits).run).2.Confined P n :=
          .changeset RuleError.edit (fun b hb => hb.run_ofEdits hedits) h
        split
        · rename_i hrun
          rw [hrun] at hchange
          exact ih hchange
        · rename_i hrun
          rw [hrun] at hchange
          exact hchange
      · exact ih h

/-- Each worker reports findings that keep texts admissible. -/
def KeepTexts (P : Nat → String → Prop) (site : Site) (workers : List Worker) : Prop :=
  ∀ w ∈ workers, ∃ info findings, w.rule = .ofFindings info findings ∧
    ∀ i, ∀ f ∈ findings site i, f.Keeps P

theorem Worker.confined_visit {site : Site} {w : Worker} {info : RuleInfo}
    {findings : Site → Nat → List Finding} (hrule : w.rule = .ofFindings info findings) {i : Nat}
    (hfs : ∀ f ∈ findings site i, f.Keeps P) {kind : Kind} {s : PassState}
    (h : s.desk.buffer.Confined P n) : (w.visit site i kind s).desk.buffer.Confined P n := by
  unfold visit
  split
  · rw [PassState.desk_invoke, hrule]
    have hrun := w.active.confined_run_ofFindings site hfs h
    unfold ActiveRule.close
    split
    · exact hrun.rollback
    · exact hrun
  · exact h

theorem confined_visitTokens {site : Site} {workers : List Worker} (hworkers : KeepTexts P site workers)
    {s : PassState} (h : s.desk.buffer.Confined P n) :
    (visitTokens site workers s).desk.buffer.Confined P n := by
  refine List.foldlRecOn (motive := fun s : PassState => s.desk.buffer.Confined P n) _ _ h
    fun s h p _ => ?_
  refine List.foldlRecOn (motive := fun s : PassState => s.desk.buffer.Confined P n) _ _ h
    fun s h w hw => ?_
  obtain ⟨info, findings, hrule, hfs⟩ := hworkers w hw
  exact Worker.confined_visit hrule (hfs p.2) h

/-- A pass leaves admissible texts, if those of the source are admissible. -/
theorem confined_runPass {disk : Disk} {workers : List Worker} {file : SourceFile}
    (htexts : ∀ i, P i ((Tokens.ofSource file.content).content i))
    (hworkers : KeepTexts P ⟨file, .ofSource file.content, disk⟩ workers) (fixing : Bool)
    (run : RunState) (failures : List RuleFailure) :
    (runPass disk workers file fixing run failures).desk.buffer.Confined P
      (Tokens.ofSource file.content).size := by
  unfold runPass
  simp only
  exact confined_visitTokens hworkers (.ofTokens htexts fixing)

end PhpStyle
