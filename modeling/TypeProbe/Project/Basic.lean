import TypeProbe.Inference.Checker
import TypeProbe.Text.FileName
import TypeProbe.Tree.Parsed
import TypeProbe.Types.Printer

/-!
# Projects

A `Project` holds source files by name. A file is read when it is put into the project or when its
text is replaced; types are worked out afresh for every request, by the file's checker.
-/

namespace TypeProbe

/-- A file that has been read. -/
structure SourceFile where
  /-- Its name. -/
  name : String
  /-- The name of the module it holds. -/
  moduleName : String
  /-- Its text and tree. -/
  parsed : ParsedText
  /-- What is known of its names. -/
  bindings : Bindings
deriving DecidableEq, Inhabited

namespace SourceFile

/-- Reads a file with the given text. -/
def ofText (name text : String) : SourceFile :=
  let parsed := ParsedText.ofText text
  { name, parsed
    moduleName := FileName.moduleName name
    bindings := Bindings.ofTree parsed.arena parsed.root }

/-- Replaces the text of a file. Its bindings are collected anew in place of the old ones. -/
def withText (file : SourceFile) (text : String) : SourceFile :=
  let parsed := ParsedText.ofText text
  { file with parsed, bindings := file.bindings.rebind parsed.arena parsed.root }

/-- A checker for the file that has not been asked yet. -/
def checker (file : SourceFile) : Checker :=
  Checker.ofModule file.parsed.arena file.bindings file.moduleName

/-- The types of a checker for the file, as they are shown. -/
def graph (file : SourceFile) (c : Checker) : TypeGraph :=
  ⟨c.store, file.parsed.arena, file.parsed.lines⟩

end SourceFile

/-- Source files by name. -/
structure Project where
  /-- The files. -/
  files : Named SourceFile
deriving DecidableEq, Inhabited

namespace Project

/-- The project without files. -/
def empty : Project := ⟨[]⟩

/-- The number of files. -/
def fileCount (p : Project) : Nat := p.files.length

/-- The file with the given name. -/
def file? (p : Project) (name : String) : Option SourceFile := p.files.get? name

/-- Puts a file into the project, in the place of one with the same name. -/
def setFile (p : Project) (name text : String) : Project :=
  ⟨p.files.insert name (SourceFile.ofText name text)⟩

/-- Replaces the text of a file, if there is such a file. -/
def updateFile (p : Project) (name text : String) : Project :=
  match p.file? name with
  | some file => ⟨p.files.insert name (file.withText text)⟩
  | none => p

/-- Takes a file out of the project. -/
def removeFile (p : Project) (name : String) : Project :=
  ⟨p.files.filter fun entry => entry.1 != name⟩

end Project

end TypeProbe
