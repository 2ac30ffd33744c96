import ShardedModel.Files
import ShardedModel.Settings.Codec

/-!
# Keeping settings

Settings are saved as they are, usable or not, and the file that was there before is
replaced only by a complete new one. Loading accepts only settings that can be used.
-/

namespace ShardedModel.Settings

variable {m : Type → Type} [Monad m] [Files m]

def save (s : Settings) (path : String) (writer : Toml.Writer := .bytewise) :
    ExceptT Failure m Unit :=
  Files.replaceFile path "toml.tmp" (s.encode writer)

def load (path : String) : ExceptT Failure m Settings := do
  let content ← Files.read path
  let settings ← liftExcept (decode content)
  liftExcept settings.validate
  return settings

end ShardedModel.Settings
