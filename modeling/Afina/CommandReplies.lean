import Afina.Commands
import Afina.StoreOutcome

namespace Afina

/-- The entry the command would write is not larger than the limit. -/
def InsertKind.Fits (s : Store) (key args : Bytes) : InsertKind → Prop
  | .set => s.cache.Admits key args
  | .add => True
  | .append => ∀ old ∈ s.cache.contents key, s.cache.Admits key (old ++ args)
  | .replace => ∀ old ∈ s.cache.contents key, s.cache.Admits key args

end Afina
