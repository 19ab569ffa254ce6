import ImageRecipe.Build.Dockerfile
import ImageRecipe.Build.Run
import ImageRecipe.Formats
import ImageRecipe.Recipe.Identity
import ImageRecipe.Recipe.Source
import ImageRecipe.Shell.Eval
import ImageRecipe.Proofs.Json.Strings
import ImageRecipe.Proofs.Build.Lines
import ImageRecipe.Proofs.Build.Faithful
import ImageRecipe.Proofs.Build.Runs
import ImageRecipe.Proofs.Decode.RoundTrip
import ImageRecipe.Proofs.Recipe.History
import ImageRecipe.Proofs.Recipe.Loading
import ImageRecipe.Proofs.Recipe.Replay
import ImageRecipe.Proofs.Build.DockerfileLines
import ImageRecipe.Proofs.Build.ScriptOperations
import ImageRecipe.Proofs.Build.Changes
import ImageRecipe.Proofs.Build.Policies
import ImageRecipe.Proofs.Decode.Formats
import ImageRecipe.Proofs.Decode.JsonAsYaml
import ImageRecipe.Proofs.Build.Log
import ImageRecipe.Proofs.Build.Payloads
import ImageRecipe.Proofs.Build.Renaming
import ImageRecipe.Proofs.Build.SamePlan
import ImageRecipe.Proofs.Text.Lower
import ImageRecipe.Proofs.Build.PolicyText
import ImageRecipe.Proofs.Build.Overrides
import ImageRecipe.Proofs.Decode.Gather
import ImageRecipe.Proofs.Decode.EntryFields
import ImageRecipe.Proofs.Decode.UnorderedRecords
import ImageRecipe.Proofs.Decode.AliasCounts
import ImageRecipe.Proofs.Decode.StepParts
import ImageRecipe.Proofs.Decode.UnorderedSteps
import ImageRecipe.Proofs.Decode.Unordered
import ImageRecipe.Proofs.Number.Binary64
import ImageRecipe.Proofs.Yaml.Spellings
import ImageRecipe.Proofs.Yaml.PlainWords
import ImageRecipe.Proofs.Decode.Verbatim
import ImageRecipe.Proofs.Build.Keywords
import ImageRecipe.Proofs.Yaml.WrittenNumbers
import ImageRecipe.Proofs.Decode.Ports
import ImageRecipe.Proofs.Yaml.Unfolding
import ImageRecipe.Proofs.Decode.Aliases
