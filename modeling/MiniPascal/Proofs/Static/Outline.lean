import MiniPascal.Proofs.Static.Rules
import MiniPascal.Proofs.Tree.Shape

/-!
# Outlines of programs that were read

The names and types in the outline of a program are as they can be written.
-/

namespace MiniPascal.Static

open Tree (IsVarDecl IsDecl IsRoutine IsProgram)

/-- A variable has a name and a type that can be written. -/
def Written (v : String × VarType) : Prop := IsName v.1 ∧ v.2.Proper

/-- The variables of a program have names and types that can be written. -/
structure Outline.Written (o : Outline) : Prop where
  globals : ∀ g ∈ o.globals, Static.Written g
  params : ∀ h ∈ o.headers, ∀ v ∈ h.params, Static.Written v
  locals : ∀ h ∈ o.headers, ∀ v ∈ h.locals, Static.Written v

theorem written_of_isVarDecl (ht : IsVarDecl t) (declares : declared? t = some v) :
    Written v := by
  cases ht with
  | mk name type =>
    cases declares
    exact ⟨name, type⟩

theorem written_of_isDecl (ht : IsDecl t) (declares : declared? t = some v) :
    Written v := by
  cases ht with
  | var ht => exact written_of_isVarDecl ht declares
  | const => cases declares

theorem written_of_isVarDecls {ts : List Tree} (hts : ∀ t ∈ ts, IsVarDecl t) :
    ∀ v ∈ ts.filterMap declared?, Written v := by
  intro v member
  obtain ⟨t, inside, declares⟩ := List.mem_filterMap.mp member
  exact written_of_isVarDecl (hts t inside) declares

theorem written_of_isRoutine {h : Header} (ht : IsRoutine t) (declares : header? t = some h) :
    (∀ v ∈ h.params, Written v) ∧ ∀ v ∈ h.locals, Written v := by
  cases ht with
  | forward _ params =>
    cases declares
    exact ⟨written_of_isVarDecls params, by simp⟩
  | defined _ params _ locals =>
    cases declares
    exact ⟨written_of_isVarDecls params, written_of_isVarDecls locals⟩

theorem written_of_isProgram (ht : IsProgram t) (outline : outline? t = some o) :
    o.Written := by
  cases ht with
  | mk decls routines =>
    cases outline
    refine ⟨fun g member => ?_, fun h member => ?_, fun h member => ?_⟩
    · obtain ⟨d, inside, declares⟩ := List.mem_filterMap.mp member
      exact written_of_isDecl (decls d inside) declares
    · obtain ⟨r, inside, declares⟩ := List.mem_filterMap.mp member
      exact (written_of_isRoutine (routines r inside) declares).1
    · obtain ⟨r, inside, declares⟩ := List.mem_filterMap.mp member
      exact (written_of_isRoutine (routines r inside) declares).2

theorem isName_of_isRoutine (ht : IsRoutine t) (declares : header? t = some h) :
    IsName h.name := by
  cases ht with
  | forward name | defined name => cases declares; exact name

/-- Routines have names that can be written. -/
theorem isName_of_isProgram {o : Outline} (ht : IsProgram t) (outline : outline? t = some o) :
    ∀ h ∈ o.headers, IsName h.name := by
  cases ht with
  | mk _ routines =>
    cases outline
    intro h member
    obtain ⟨r, inside, declares⟩ := List.mem_filterMap.mp member
    exact isName_of_isRoutine (routines r inside) declares

end MiniPascal.Static
