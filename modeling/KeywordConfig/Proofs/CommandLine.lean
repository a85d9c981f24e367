import Mathlib
import KeywordConfig.Proofs.Directory
import KeywordConfig.Proofs.Reports
import KeywordConfig.Proofs.Requests

namespace KeywordConfig.CommandLine

-- What a directory does not say of the files in it: they may be protected or hold no text, and a text
-- that is no JSON may be complained of in any words.
structure Faults where
  reading : String → Option FileError := fun _ => none
  writing : String → Option FileError := fun _ => none
  complaint : String → String := Directory.host.complaint

namespace Faults

def read (f : Faults) (d : Directory) (path : String) : Except FileError String :=
  match f.reading path with
  | some why => .error why
  | none => d.readFile path

def target (f : Faults) (d : Directory) (path : String) : Except FileError Place :=
  match f.writing path with
  | some why => .error why
  | none => d.target path

def host (f : Faults) : Host (StateM Directory) where
  read path := match f.reading path with
    | some why => return .error why
    | none => Directory.host.read path
  write path content := match f.writing path with
    | some why => return .error why
    | none => Directory.host.write path content
  complaint := f.complaint

end Faults

-- The document that a script and a registry make, once they have been read.
inductive Builds (f : Faults) (d : Directory) (i : Invocation) (document : Document) : Prop where
  | of : f.read d i.script = .ok script → f.read d i.registry = .ok json → Registry.load json = .ok registry →
      interpret script registry = .ok document → Builds f d i document

theorem Builds.unique (first : Builds f d i a) (second : Builds f d i b) : a = b := by
  obtain ⟨script, registry, loaded, built⟩ := first
  obtain ⟨script', registry', loaded', built'⟩ := second
  cases script.symm.trans script'
  cases registry.symm.trans registry'
  cases loaded.symm.trans loaded'
  cases built.symm.trans built'
  rfl

-- The first step that fails, as what is said of it: from the step to what made it fail.
inductive Fails (f : Faults) (d : Directory) (i : Invocation) : List String → Prop where
  | script : f.read d i.script = .error why → Fails f d i [s!"Reading {i.script}", why.message]
  | registry : f.read d i.script = .ok script → f.read d i.registry = .error why →
      Fails f d i [s!"Reading {i.registry}", why.message]
  | notJson : f.read d i.script = .ok script → f.read d i.registry = .ok json →
      Registry.load json = .error .notJson →
      Fails f d i [s!"Parsing registry {i.registry}", "registry is not valid JSON", f.complaint json]
  | notObject : f.read d i.script = .ok script → f.read d i.registry = .ok json →
      Registry.load json = .error .notObject →
      Fails f d i [s!"Parsing registry {i.registry}", "registry must be a JSON object of keyword declarations"]
  | malformed : f.read d i.script = .ok script → f.read d i.registry = .ok json →
      Registry.load json = .error (.malformed keyword why) →
      Fails f d i [s!"Parsing registry {i.registry}", s!"invalid declaration for keyword `{keyword}`", why.message]
  | interpret : f.read d i.script = .ok script → f.read d i.registry = .ok json →
      Registry.load json = .ok registry → KeywordConfig.interpret script registry = .error why →
      Fails f d i [s!"Interpreting {i.script}", why.message]
  | write : Builds f d i document → i.output = some path → f.target d path = .error why →
      Fails f d i ["Writing configuration document", s!"Writing {path}", why.message]

namespace Execution

section

variable (f : Faults) (path : String) (d : Directory)

end

end Execution

open Execution

-- What a run prints and reports, and the files behind it.
def outcome (f : Faults) (d : Directory) (args : List String) : Exit × Directory := run f.host args d

section

variable {f : Faults} {d : Directory} {i : Invocation}

-- The place that is written holds the text, every other what it held, and no other file is new or has
-- changed. Files outside the directory are not kept.
def Written (d : Directory) (p : Place) (text : String) (after : Directory) : Prop :=
  if p.base = .here then
    (∀ q, after.node q = if q = p then .file text else d.node q) ∧
      ∀ file ∈ d.changes after, Route.names file.1 = p.names ∧ file.2 = text
  else after = d

end

end KeywordConfig.CommandLine
