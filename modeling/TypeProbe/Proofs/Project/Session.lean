import Mathlib.Data.List.Induction
import TypeProbe.Project.Report
import TypeProbe.Proofs.Scope.Steps

/-!
# Answers from the latest text

A project lives through calls (`ProjectCall`): files are put into it, get new texts and are taken
out, and requests are answered unless they are cancelled (`Session.step`). What the project is after
them can be told from the calls alone (`Session.Reflects`): a file is what its latest text reads as
(`Session.latestText?`), with nothing left of what was read before, or of other files. So a request
is answered as by a project that has just been made for it (`Session.latestAnswer`). Where a new
text is read in the place of an old one, bindings are there already; they are forgotten first
(`Bindings.rebind_eq`).
-/

namespace TypeProbe

/-- A call on a project, or on the token by which requests are cancelled. -/
inductive ProjectCall where
  | setFile (name text : String)
  | updateFile (name text : String)
  | removeFile (name : String)
  | execute (arguments : List Json)
  | cancel
  | reset

/-- A project that calls are made on. -/
structure Session where
  /-- The project. -/
  project : Project
  /-- Whether the token says that requests are cancelled. -/
  cancelled : Bool
  /-- The answers so far, in order. -/
  answers : List (Option (List String))

namespace Session

/-- The project without files, on which no call has been made. -/
def initial : Session := ⟨.empty, false, []⟩

/-- A call is made. -/
def step (s : Session) : ProjectCall → Session
  | .setFile name text => { s with project := s.project.setFile name text }
  | .updateFile name text => { s with project := s.project.updateFile name text }
  | .removeFile name => { s with project := s.project.removeFile name }
  | .execute arguments =>
    { s with answers := s.answers ++ [s.project.report s.cancelled arguments] }
  | .cancel => { s with cancelled := true }
  | .reset => { s with cancelled := false }

/-! ## What calls alone tell -/

/-- The text that a file has after calls, the latest of which stands first: the one of the latest
call that has put the file in or given it a new text while it was there, unless the file has been
taken out since. -/
def latestText? (name : String) : List ProjectCall → Option String
  | [] => none
  | .setFile other text :: earlier =>
    if name = other then some text else latestText? name earlier
  | .updateFile other text :: earlier =>
    if name = other then (latestText? name earlier).map fun _ => text
    else latestText? name earlier
  | .removeFile other :: earlier => if name = other then none else latestText? name earlier
  | _ :: earlier => latestText? name earlier

/-- Whether requests are cancelled after calls, the latest of which stands first. -/
def isCancelled : List ProjectCall → Bool
  | [] => false
  | .cancel :: _ => true
  | .reset :: _ => false
  | _ :: earlier => isCancelled earlier

/-- The answer of a new project that holds just the file that a request is about, put in with its
latest text; no lines if there is no such file, or if requests are cancelled. -/
def latestAnswer (earlier : List ProjectCall) (arguments : List Json) : Option (List String) :=
  if isCancelled earlier then some []
  else
    match arguments with
    | .text name :: _ =>
      match latestText? name earlier with
      | some text => (Project.empty.setFile name text).report false arguments
      | none => some []
    | _ => some []

/-- The answers to all requests among calls, the latest of which stands first. -/
def latestAnswers : List ProjectCall → List (Option (List String))
  | [] => []
  | .execute arguments :: earlier => latestAnswers earlier ++ [latestAnswer earlier arguments]
  | _ :: earlier => latestAnswers earlier

end Session

/-! ## Reading a file again -/

/-- Bindings that are collected in place of others are those of the tree. -/
theorem Bindings.rebind_eq (b : Bindings) (a : Arena) (root : NodeId) :
    b.rebind a root = ofTree a root := rfl

/-- A file with its text replaced is the file read with that text. -/
theorem SourceFile.withText_ofText (name old text : String) :
    (ofText name old).withText text = ofText name text := by
  rw [withText, Bindings.rebind_eq]
  rfl

namespace Named

variable {α : Type}

/-- The value of a name after one has been given a value. -/
theorem get?_insert (t : Named α) (key name : String) (value : α) :
    (t.insert key value).get? name = if name = key then some value else t.get? name :=
  get?_alter t key name value fun _ => value

/-- The value of a name after the values of one have been taken out. -/
theorem get?_filter_ne (t : Named α) (key name : String) :
    get? (t.filter fun entry => entry.1 != key) name =
      if name = key then none else t.get? name := by
  induction t with
  | nil => exact (ite_self none).symm
  | cons entry rest ih =>
    obtain ⟨first, value⟩ := entry
    by_cases hfirst : first = key
    · rw [List.filter_cons_of_neg (by simp [hfirst]), ih, get?_cons]
      by_cases hname : name = key
      · rw [if_pos hname, if_pos hname]
      · rw [if_neg hname, if_neg hname, if_neg (hfirst ▸ hname)]
    · rw [List.filter_cons_of_pos (by simp [hfirst]), get?_cons, get?_cons, ih]
      by_cases hname : name = first
      · rw [if_pos hname, if_pos hname, if_neg (hname ▸ hfirst)]
      · rw [if_neg hname, if_neg hname]

end Named

/-! ## Answers -/

namespace Project

variable {p q : Project}

/-- The files after one has been put in. -/
theorem file?_setFile (p : Project) (other text name : String) :
    (p.setFile other text).file? name =
      if name = other then some (.ofText other text) else p.file? name :=
  Named.get?_insert p.files other name _

/-- The files after one has been given a new text. -/
theorem file?_updateFile (p : Project) (other text name : String) :
    (p.updateFile other text).file? name =
      if name = other then (p.file? other).map (·.withText text) else p.file? name := by
  unfold updateFile
  cases hfile : p.file? other with
  | none =>
    dsimp only
    split
    · rename_i hname
      rw [hname, hfile, Option.map_none]
    · rfl
  | some file => exact Named.get?_insert p.files other name _

/-- The files after one has been taken out. -/
theorem file?_removeFile (p : Project) (other name : String) :
    (p.removeFile other).file? name = if name = other then none else p.file? name :=
  Named.get?_filter_ne p.files other name

/-- Cancelled requests are answered without lines. -/
theorem report_cancelled (p : Project) (arguments : List Json) :
    p.report true arguments = some [] := by
  unfold report
  split
  · split <;> rfl
  · rfl

/-- Only the file that a request is about counts for the answer. -/
theorem report_congr {name : String} (h : p.file? name = q.file? name) (cancelled : Bool)
    (further : List Json) :
    p.report cancelled (.text name :: further) = q.report cancelled (.text name :: further) := by
  unfold report
  split
  · rename_i heq
    cases heq
    rw [h]
  · rfl

/-- Without the file, a request is answered without lines. -/
theorem report_of_file?_eq_none {name : String} (h : p.file? name = none) (cancelled : Bool)
    (further : List Json) : p.report cancelled (.text name :: further) = some [] := by
  unfold report
  split
  · rename_i heq
    cases heq
    rw [h]
    split
    · rename_i hnone
      cases hnone
    · rfl
  · rfl

end Project

/-- A session is what the calls on it tell, the latest of which stands first. -/
structure Session.Reflects (s : Session) (calls : List ProjectCall) : Prop where
  /-- A file is its latest text as it reads. -/
  files : ∀ name, s.project.file? name = (latestText? name calls).map (SourceFile.ofText name)
  /-- Requests are cancelled if they have been. -/
  cancelled : s.cancelled = isCancelled calls
  /-- Every request has been answered from the latest text. -/
  answers : s.answers = latestAnswers calls

namespace Session.Reflects

variable {s : Session} {calls : List ProjectCall}

/-- A request is answered from the latest text. -/
theorem report_eq (h : s.Reflects calls) (arguments : List Json) :
    s.project.report s.cancelled arguments = latestAnswer calls arguments := by
  unfold latestAnswer
  rw [h.cancelled]
  cases isCancelled calls with
  | true => exact Project.report_cancelled s.project arguments
  | false =>
    rcases arguments with _ | ⟨first, further⟩
    · rfl
    cases first with
    | text name =>
      have hfile := h.files name
      show _ = match latestText? name calls with | some text => _ | none => _
      cases htext : latestText? name calls with
      | none =>
        rw [htext] at hfile
        exact Project.report_of_file?_eq_none hfile false further
      | some text =>
        refine Project.report_congr (hfile.trans ?_) false further
        rw [htext, Project.file?_setFile, if_pos rfl, Option.map_some]
    | _ => rfl

/-- A session goes on being what the calls on it tell. -/
theorem step (h : s.Reflects calls) (call : ProjectCall) :
    (s.step call).Reflects (call :: calls) := by
  cases call with
  | setFile other text =>
    refine ⟨fun name => ?_, h.cancelled, h.answers⟩
    refine (Project.file?_setFile _ _ _ _).trans ?_
    rw [latestText?]
    split
    · rename_i hname
      rw [hname, Option.map_some]
    · exact h.files name
  | updateFile other text =>
    refine ⟨fun name => ?_, h.cancelled, h.answers⟩
    refine (Project.file?_updateFile _ _ _ _).trans ?_
    rw [latestText?]
    split
    · rename_i hname
      rw [hname, h.files other, Option.map_map, Option.map_map]
      exact Option.map_congr fun old _ => SourceFile.withText_ofText other old text
    · exact h.files name
  | removeFile other =>
    refine ⟨fun name => ?_, h.cancelled, h.answers⟩
    refine (Project.file?_removeFile _ _ _).trans ?_
    rw [latestText?]
    split
    · rfl
    · exact h.files name
  | execute arguments =>
    refine ⟨h.files, h.cancelled, ?_⟩
    show s.answers ++ [s.project.report s.cancelled arguments] = _
    rw [h.report_eq, h.answers]
    rfl
  | cancel => exact ⟨h.files, rfl, h.answers⟩
  | reset => exact ⟨h.files, rfl, h.answers⟩

end Session.Reflects

/-- However a project has come about by calls, every file in it is what its latest text reads as,
and every request has been answered as by a new project that holds just the file that the request is
about, put in with its latest text: without lines if there is no such file or requests were
cancelled. -/
theorem Session.answers_from_latest (calls : List ProjectCall) :
    let s := calls.foldl Session.step .initial
    s.answers = latestAnswers calls.reverse ∧
    (∀ name, s.project.file? name =
      (latestText? name calls.reverse).map (SourceFile.ofText name)) ∧
    ∀ arguments, s.project.report s.cancelled arguments = latestAnswer calls.reverse arguments := by
  have hreflects : (calls.foldl Session.step .initial).Reflects calls.reverse := by
    induction calls using List.reverseRecOn with
    | nil => exact ⟨fun _ => rfl, rfl, rfl⟩
    | append_singleton calls call ih =>
      rw [List.foldl_concat, List.reverse_concat]
      exact ih.step call
  exact ⟨hreflects.answers, hreflects.files, hreflects.report_eq⟩

end TypeProbe
