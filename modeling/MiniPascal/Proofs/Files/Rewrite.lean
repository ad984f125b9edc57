import Mathlib.Data.List.Sort
import MiniPascal.Files.Glob

/-!
# Files that are written over

What is written to a file is read again from it (`Files.read_of_write`). Nothing else changes for one
who reads other files or looks for names: the place that a path names, the names in a directory and the
paths that match a pattern depend on the kind of an entry, never on the content of a file.
-/

open List

namespace MiniPascal

/-- Sorting away repetitions leaves nothing but which elements there are. -/
theorem mergeSort_eraseDups_congr {xs ys : List String} (same : ∀ x, x ∈ xs ↔ x ∈ ys) :
    xs.eraseDups.mergeSort (· ≤ ·) = ys.eraseDups.mergeSort (· ≤ ·) := by
  have nodup (zs : List String) : zs.eraseDups.Nodup := by
    induction len : zs.length using Nat.strong_induction_on generalizing zs with
    | _ n ih =>
      cases zs with
      | nil => exact nodup_nil
      | cons z zs =>
        rw [eraseDups_cons, nodup_cons, mem_eraseDups]
        refine ⟨by simp, ih _ ?_ _ rfl⟩
        have := zs.length_filter_le fun b => !b == z
        rw [length_cons] at len
        omega
  have perm : xs.eraseDups ~ ys.eraseDups :=
    (perm_ext_iff_of_nodup (nodup xs) (nodup ys)).mpr fun x => by simpa using same x
  exact ((mergeSort_perm _ _).trans (perm.trans (mergeSort_perm _ _).symm)).eq_of_pairwise'
    (pairwise_mergeSort' (· ≤ ·) _) (pairwise_mergeSort' (· ≤ ·) _)

namespace Files

variable {fs gs : Files} {place q : List String} {e : FileEntry} {path content old : String}

/-! ## Writing and reading -/

theorem lookup_put (e : FileEntry) (q : List String) :
    (fs.put place e).entries.lookup q = if q = place then some e else fs.entries.lookup q := by
  obtain ⟨entries⟩ := fs
  simp only [put]
  induction entries with
  | nil => by_cases same : q = place <;> simp [lookup_cons, same, beq_false_of_ne]
  | cons x entries ih =>
    obtain ⟨p, y⟩ := x
    by_cases here : p = place
    · subst here
      by_cases same : q = p <;> simp_all [lookup_cons, beq_false_of_ne]
    · by_cases same : q = p <;> simp_all [lookup_cons, beq_false_of_ne]

/-- Elsewhere an entry changes nothing, but where there was nothing and it is below there now is a
directory. -/
theorem at?_put (other : q ≠ place) : (fs.put place e).at? q =
    (fs.at? q).or (if q.isPrefixOf place then some .directory else none) := by
  cases q with
  | nil => rfl
  | cons part parts =>
    unfold at?
    rw [lookup_put, if_neg other]
    cases fs.entries.lookup (part :: parts) with
    | some e => rfl
    | none =>
      by_cases below : (part :: parts).isPrefixOf place = true
      · simp only [put, any_append, any_cons, below, Bool.true_or, Bool.or_true, if_true]
        split <;> rfl
      · have same : (fs.put place e).entries.any (fun x => (part :: parts).isPrefixOf x.1) =
            fs.entries.any fun x => (part :: parts).isPrefixOf x.1 := by
          simp only [put, any_append, any_cons, any_nil, below, Bool.or_false, any_filter]
          congr 1
          funext x
          by_cases here : x.1 = place <;> simp [here, below]
        rw [same, if_neg below, Option.or_none]

theorem at?_put_self (inside : place ≠ []) : (fs.put place e).at? place = some e := by
  cases place with
  | nil => contradiction
  | cons part parts =>
    unfold at?
    rw [lookup_put, if_pos rfl]

theorem follow_of_directories (stays : ∀ p, fs.at? p = some .directory → gs.at? p = some .directory)
 (leads : fs.follow path q parts = .ok place) :
    gs.follow path q parts = .ok place := by
  induction parts generalizing q with
  | nil => exact leads
  | cons part parts ih =>
    rw [follow] at leads ⊢
    cases here : fs.at? q with
    | none => simp [here] at leads
    | some e =>
      cases e with
      | text => simp [here] at leads
      | directory =>
        grind

/-- What is written is read again. -/
theorem read_of_write (written : fs.write path content = .ok gs) : gs.read path = .ok content := by
  unfold write at written
  cases leads : fs.locate path with
  | error e =>
    rw [leads] at written
    cases written
  | ok place =>
    rw [leads] at written
    obtain ⟨noDirectory, rfl⟩ :
        fs.at? place ≠ some .directory ∧ fs.put place (.text content) = gs := by
      dsimp only [bind, Except.bind] at written
      split at written
      · cases written
      · next text => exact ⟨by simp [text], Except.ok.inj written⟩
      · next none =>
        split at written
        · exact ⟨by simp [none], Except.ok.inj written⟩
        · cases written
    have leads' : (fs.put place (.text content)).locate path = .ok place := by
      unfold locate at leads ⊢
      dsimp only at leads ⊢
      split at leads
      · cases leads
      · next known =>
        rw [if_neg known]
        refine follow_of_directories (fun p directory => ?_) leads
        have other : p ≠ place := by
          rintro rfl
          exact noDirectory directory
        rw [at?_put other, directory]
        rfl
    have here : (fs.put place (.text content)).at? place = some (.text content) := by
      refine at?_put_self ?_
      rintro rfl
      exact noDirectory rfl
    simp [read, find, leads', here, bind, Except.bind]

/-! ## What a new content leaves as it is -/

/-- The files differ at most in the content of the file at one place. -/
structure Rewritten (place : List String) (fs gs : Files) : Prop where
  elsewhere : ∀ p, p ≠ place → gs.at? p = fs.at? p
  here : (∃ old, fs.at? place = some (.text old)) ∧ ∃ new, gs.at? place = some (.text new)
  names : ∀ p, gs.names p = fs.names p

/-- A file that is there is written over, and nothing else is changed. -/
theorem exists_rewritten (there : fs.read path = .ok old) (content : String) :
    ∃ place gs, fs.locate path = .ok place ∧ fs.write path content = .ok gs ∧
      Rewritten place fs gs := by
  obtain ⟨place, located, text⟩ :
      ∃ place, fs.locate path = .ok place ∧ fs.at? place = some (.text old) := by
    unfold read find at there
    cases located : fs.locate path with
    | error e => simp [located, bind, Except.bind] at there
    | ok place =>
      refine ⟨place, rfl, ?_⟩
      rw [located] at there
      cases found : fs.at? place with
      | none => simp [found, bind, Except.bind] at there
      | some e => cases e <;> simp_all [bind, Except.bind]
  have inside : place ≠ [] := by
    rintro rfl
    cases text
  have entry : (place, .text old) ∈ fs.entries := by
    have found : fs.entries.lookup place = some (.text old) := by
      unfold at? at text
      split at text <;> simp_all
    obtain ⟨front, back, split, -⟩ := lookup_eq_some_iff.mp found
    simp [split]
  refine ⟨place, fs.put place (.text content), located, by simp [write, located, text, bind, Except.bind],
    fun p other => ?_, ⟨⟨old, text⟩, content, at?_put_self inside⟩, fun p => ?_⟩
  · rw [at?_put other]
    cases found : fs.at? p with
    | some e => rfl
    | none =>
      rw [if_neg, Option.none_or]
      intro below
      cases p with
      | nil => cases found
      | cons part parts =>
        unfold at? at found
        split at found
        · cases found
        · cases found
        · rw [if_pos (any_eq_true.mpr ⟨_, entry, below⟩)] at found
          cases found
  · refine mergeSort_eraseDups_congr fun name => ?_
    simp only [put, mem_filterMap, mem_append, mem_filter, mem_singleton]
    constructor
    · rintro ⟨x, ⟨member, -⟩ | rfl, named⟩
      · exact ⟨x, member, named⟩
      · exact ⟨_, entry, named⟩
    · rintro ⟨x, member, named⟩
      by_cases here : x.1 = place
      · exact ⟨_, .inr rfl, by simpa [here] using named⟩
      · exact ⟨x, .inl ⟨member, by simpa using here⟩, named⟩

namespace Rewritten

variable (h : Rewritten place fs gs)

include h

theorem follow (path : String) (q parts : List String) :
    gs.follow path q parts = fs.follow path q parts := by
  induction parts generalizing q with
  | nil => rfl
  | cons part parts ih =>
    rw [Files.follow, Files.follow]
    by_cases here : q = place
    · obtain ⟨⟨old, text⟩, new, text'⟩ := h.here
      rw [here, text, text']
    · simp only [h.elsewhere q here, ih]

theorem locate (path : String) : gs.locate path = fs.locate path := by
  unfold Files.locate
  simp only [h.follow]

theorem isDirectoryAt (p : List String) : gs.isDirectoryAt p = fs.isDirectoryAt p := by
  unfold Files.isDirectoryAt
  by_cases here : p = place
  · obtain ⟨⟨old, text⟩, new, text'⟩ := h.here
    rw [here, text, text']
  · rw [h.elsewhere p here]

theorem contains (path : String) : gs.contains path = fs.contains path := by
  unfold Files.contains find
  rw [h.locate]
  cases fs.locate path with
  | error e => rfl
  | ok p =>
    by_cases here : p = place
    · obtain ⟨⟨old, text⟩, new, text'⟩ := h.here
      simp [here, text, text', bind, Except.bind]
    · simp [h.elsewhere p here, bind, Except.bind]

theorem read (apart : fs.locate path ≠ .ok place) : gs.read path = fs.read path := by
  unfold Files.read find
  rw [h.locate]
  cases located : fs.locate path with
  | error e => rfl
  | ok p =>
    have other : p ≠ place := fun here => apart (here ▸ located)
    simp [h.elsewhere p other, bind, Except.bind]

theorem search (depth : Nat) (pattern : String) :
    Glob.search gs depth pattern = Glob.search fs depth pattern := by
  have within (pattern : List GlobChunk) : Glob.within gs pattern = Glob.within fs pattern := by
    funext dir
    unfold Glob.within
    rw [h.locate]
    simp only [h.isDirectoryAt, h.names]
  induction depth generalizing pattern with
  | zero => rfl
  | succ depth ih =>
    rw [Glob.search, Glob.search]
    simp only [h.contains, within, ih]

theorem expand (patterns : String) : Glob.expand gs patterns = Glob.expand fs patterns := by
  unfold Glob.expand
  simp only [h.search]

end Rewritten

end Files

end MiniPascal
