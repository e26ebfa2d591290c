import CoffeeTable.Ecma.Text
import CoffeeTable.Posix.Path

/-!
# The edit routes of the server

Both routes turn the requested file into an absolute path below the working
directory, or refuse it. What the file system answers is a parameter; the model
records which paths a request touches, in order, and what is sent back.
-/

namespace CoffeeTable.Server

open Ecma

def slash : CodeUnit := unit '/'

def dot : CodeUnit := unit '.'

/-- The resolved working directory: absolute and normalized. -/
structure WorkingDirectory where
  parts : List JsString
  entries : ∀ name ∈ parts, Posix.Entry slash dot name

def WorkingDirectory.text (wd : WorkingDirectory) : JsString := Posix.absolute slash wd.parts

/-- `path.join` of the working directory and a file; an empty file is left out. -/
def pathJoin (wd : WorkingDirectory) (file : JsString) : JsString :=
  Posix.normalize slash dot (if file = [] then wd.text else wd.text ++ slash :: file)

def makeAbsolute (wd : WorkingDirectory) (file : JsString) : Option JsString :=
  let target := pathJoin wd file
  if sliceTo target wd.text.length = wd.text then some target else none

structure FsError where
  code : JsString
  deriving DecidableEq

structure FileSystem where
  /-- Whether the path is a directory. -/
  stat : JsString → Except FsError Bool
  readdir : JsString → Except FsError (List JsString)
  readFile : JsString → Except FsError JsString
  writeFile : JsString → JsString → Except FsError Unit

inductive Access where
  | stat (target : JsString)
  | readdir (target : JsString)
  | readFile (target : JsString)
  | writeFile (target content : JsString)
  deriving DecidableEq

def Access.target : Access → JsString
  | .stat target => target
  | .readdir target => target
  | .readFile target => target
  | .writeFile target _ => target

inductive Response where
  | edit (basePath file contents : JsString)
  | folder (target basePath : JsString) (files : List JsString)
  | okay
  | failed (err : FsError)
  | invalidFile
  deriving DecidableEq

/-- `replace /\/[^\/]*$/, '/'` -/
def dropLastName (path : JsString) : JsString := (path.reverse.dropWhile (· ≠ slash)).reverse

/-- `replace /\/\//g, "/"` -/
def squeezeSlashes : JsString → JsString
  | first :: second :: rest =>
      if first = slash ∧ second = slash then slash :: squeezeSlashes rest
      else first :: squeezeSlashes (second :: rest)
  | path => path

def readTarget (fs : FileSystem) (file target : JsString) : List Access × Response :=
  let basePath := dropLastName (lit "/edit/" ++ file)
  ([.readFile target],
    match fs.readFile target with
    | .error err => if err.code = lit "ENOENT" then .edit basePath file [] else .failed err
    | .ok contents => .edit basePath file contents)

def getEdit (wd : WorkingDirectory) (fs : FileSystem) (file : JsString) :
    List Access × Response :=
  match makeAbsolute wd file with
  | none => ([], .invalidFile)
  | some target =>
      match fs.stat target with
      | .ok true =>
          match fs.readdir target with
          | .ok files =>
              ([.stat target, .readdir target],
                .folder target (squeezeSlashes (lit "/edit/" ++ file ++ [slash])) files)
          | .error _ =>
              let (accesses, response) := readTarget fs file target
              (.stat target :: .readdir target :: accesses, response)
      | _ =>
          let (accesses, response) := readTarget fs file target
          (.stat target :: accesses, response)

def postEdit (wd : WorkingDirectory) (fs : FileSystem) (file content : JsString) :
    List Access × Response :=
  match makeAbsolute wd file with
  | none => ([], .invalidFile)
  | some target =>
      ([.writeFile target content],
        match fs.writeFile target content with
        | .ok () => .okay
        | .error err => .failed err)

/-! ## What the routes touch -/

theorem getEdit_of_none {wd : WorkingDirectory} {file : JsString} (h : makeAbsolute wd file = none)
    (fs : FileSystem) : getEdit wd fs file = ([], .invalidFile) := by
  rw [getEdit, h]

theorem postEdit_of_none {wd : WorkingDirectory} {file : JsString}
    (h : makeAbsolute wd file = none) (fs : FileSystem) (content : JsString) :
    postEdit wd fs file content = ([], .invalidFile) := by
  rw [postEdit, h]

theorem readTarget_touches (fs : FileSystem) (file target : JsString) :
    (∀ access ∈ (readTarget fs file target).1, access.target = target) ∧
      (readTarget fs file target).2 ≠ .invalidFile := by
  refine ⟨by simp [readTarget, Access.target], ?_⟩
  cases hread : fs.readFile target with
  | ok contents => simp [readTarget, hread]
  | error err =>
      by_cases hcode : err.code = lit "ENOENT" <;> simp [readTarget, hread, hcode]

theorem getEdit_of_some {wd : WorkingDirectory} {file target : JsString}
    (h : makeAbsolute wd file = some target) (fs : FileSystem) :
    (∀ access ∈ (getEdit wd fs file).1, access.target = target) ∧
      (getEdit wd fs file).2 ≠ .invalidFile := by
  obtain ⟨htouches, hresponse⟩ := readTarget_touches fs file target
  have hread : (∀ access ∈ Access.stat target :: (readTarget fs file target).1,
      access.target = target) ∧ (readTarget fs file target).2 ≠ .invalidFile :=
    ⟨List.forall_mem_cons.mpr ⟨rfl, htouches⟩, hresponse⟩
  simp only [getEdit, h]
  cases fs.stat target with
  | error err => exact hread
  | ok isDirectory =>
      cases isDirectory with
      | false => exact hread
      | true =>
          cases fs.readdir target with
          | ok files => simp [Access.target]
          | error err =>
              exact ⟨List.forall_mem_cons.mpr ⟨rfl, List.forall_mem_cons.mpr ⟨rfl, htouches⟩⟩,
                hresponse⟩

theorem postEdit_of_some {wd : WorkingDirectory} {file target : JsString}
    (h : makeAbsolute wd file = some target) (fs : FileSystem) (content : JsString) :
    (postEdit wd fs file content).1 = [.writeFile target content] ∧
      (postEdit wd fs file content).2 ≠ .invalidFile := by
  simp only [postEdit, h, true_and]
  cases fs.writeFile target content <;> simp

end CoffeeTable.Server
