import Glossator.Comment.Http
import Glossator.Config.Discovery
import Glossator.Detection.Content
import Glossator.Detection.Extension
import Glossator.Parsing
import Glossator.Report
import Glossator.Walk

/-!
# The engine

Detection, parsing, scanning of directories and the way from a prompt to a comment, under one
configuration.
-/

set_option autoImplicit false

namespace Glossator

/-- A configuration and the service that writes comments, if there is one. -/
structure Engine where
  config : Config
  service : Option Service := none

namespace Engine

/-- The engine of a configuration. A service that cannot be reached by its settings is left out. -/
def ofConfig (exchange : Http.Exchange) (config : Config) : Engine where
  config := config
  service := (Http.connect exchange config.service).toOption

/-- The engine of the configuration in a given file, or else in the working directory. -/
def ofConfigPath (exchange : Http.Exchange) (here : Location) (path : Option Text) :
    Except Error Engine :=
  (Config.find here path).map (ofConfig exchange)

/-- The language of a file by its name, or else by its content if the configuration allows it. -/
def detect (e : Engine) (file : String) (t : Text) : Option Language :=
  match Detection.byFileName? file.toList with
  | some language => some language
  | none => if e.config.parsing.contentFallback then Detection.byContent? t else none

/-- The recognised languages and whether they can be parsed, by name. -/
def languages : List (Language × Bool) :=
  Detection.recognised.map fun language => (language, language.isParseable)

/-- A file must not exceed the limit. -/
def checkSize (e : Engine) (file : String) (content : Bytes) : Except Error Unit :=
  let limit := e.config.parsing.maxFileSize
  if limit < content.length then .error (.inputTooLarge file content.length limit) else .ok ()

/-- The functions of a file. What is not UTF-8 in it is replaced. -/
def extract (e : Engine) (file : String) (content : Bytes) : Except Error Extraction := do
  e.checkSize file content
  let t := Utf8.decodeLossy content
  match e.detect file t with
  | none => .error (.unsupportedLanguage file)
  | some language => return .ofFunctions file language (← parse language t)

/-- The report of a file with the given content. -/
def report (e : Engine) (file : String) (content : Bytes) : Report :=
  match e.extract file content with
  | .ok extraction => .extracted extraction
  | .error error => .failed file error.message

/-- The functions of the file at a path. -/
def extractFile (e : Engine) (here : Location) (path : Text) : Except Error Extraction :=
  match here.read path with
  | .ok content => e.extract (String.ofList path) content
  | .error error => .error (.io error)

/-- The reports of the files below a directory whose names tell a language. -/
def extractDirectory (e : Engine) (here : Location) (path : Text) : Except Error (List Report) :=
  match here.walk path with
  | .ok found =>
    .ok ((found.filter fun f => (Detection.byFileName? f.path).isSome).map fun f =>
      e.report (String.ofList f.path) f.content)
  | .error error => .error (.io error)

/-- The report of the file at a path. -/
def reportAt (e : Engine) (here : Location) (path : Text) : Report :=
  match e.extractFile here path with
  | .ok extraction => .extracted extraction
  | .error error => .failed (String.ofList path) error.message

/-- The reports of what a path leads to: of a directory those of its files, else that of the
path. -/
def extractAny (e : Engine) (here : Location) (path : Text) : Except Error (List Report) :=
  if here.hasDirectory path then e.extractDirectory here path
  else .ok [e.reportAt here path]

/-- The request that a prompt stands for. The file must be a prompt by its name, and its code must
hold exactly one function. -/
def prepare (e : Engine) (file : String) (content : Bytes) : Except Error CommentRequest := do
  e.checkSize file content
  match Detection.byFileName? file.toList with
  | none => .error (.unsupportedLanguage file)
  | some .prompt =>
    match Prompt.split? (Utf8.decodeLossy content) with
    | none => .error .codeNotFound
    | some (prose, code) =>
      let code := Text.trim code
      match Detection.byContent? code with
      | none => .error (.unsupportedLanguage file)
      | some language =>
        match ← parse language code with
        | [function] =>
          return {
            task := String.ofList (Text.trim prose)
            code := String.ofList code
            function := function.fullText.getD (String.ofList code)
            language := language
            description := function }
        | functions => .error (.functionCount functions.length)
  | some language => .error (.notAPrompt file language)

/-- The comment for a request. -/
def comment (e : Engine) (request : CommentRequest) : Except Error Comment :=
  match e.service with
  | none => .error (.config .backendDisabled)
  | some service => (service.answer request).map fun s => ⟨s, request.function⟩

end Engine

end Glossator
