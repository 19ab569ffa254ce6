import ImageRecipe.Decode.RecordReader
import ImageRecipe.Decode.TreeReading
import ImageRecipe.Json.Printer
import ImageRecipe.Yaml.Printer

/-!
# Records as YAML and JSON

Definitions, steps, labels and settings in text, and back.  A text that does
not describe the record is answered with a serialization failure.  A
definition in compact JSON is YAML as well, so `Definition.ofYaml` reads both
formats.
-/

namespace ImageRecipe

open Decode

def Decode.orFailure {α : Type} (format : Format) (r : Except Misread α) : Except Failure α :=
  r.mapError fun m => .serialization (m.message format)

namespace Definition

def toJson (d : Definition) : String :=
  Json.compact d.toValue

def toYaml (d : Definition) : String :=
  Yaml.block d.toValue

def ofYaml (text : String) : Except Failure Definition :=
  orFailure .yaml (readYaml Reading.definition text)

end Definition

namespace Step

def toJson (s : Step) : String :=
  Json.compact s.toValue

def toYaml (s : Step) : String :=
  Yaml.block s.toValue

def ofJson (text : String) : Except Failure Step :=
  orFailure .json (TreeReading.readJson TreeReading.step text)

def ofYaml (text : String) : Except Failure Step :=
  orFailure .yaml (readStep text)

end Step

namespace Labels

def toJson (l : Labels) : String :=
  Json.compact l.toValue

def toYaml (l : Labels) : String :=
  Yaml.block l.toValue

def ofJson (text : String) : Except Failure Labels :=
  orFailure .json (TreeReading.readJson TreeReading.labels text)

def ofYaml (text : String) : Except Failure Labels :=
  orFailure .yaml (readYaml Reading.labels text)

end Labels

namespace Settings

def toJson (s : Settings) : String :=
  Json.compact s.toValue

def toYaml (s : Settings) : String :=
  Yaml.block s.toValue

def ofJson (text : String) : Except Failure Settings :=
  orFailure .json (TreeReading.readJson TreeReading.settings text)

def ofYaml (text : String) : Except Failure Settings :=
  orFailure .yaml (readYaml Reading.settings text)

def ofValue (t : Json.Tree) : Except Failure Settings :=
  orFailure .json (TreeReading.settingsOfValue t)

end Settings

end ImageRecipe
