import Afina.HandlerReplies
import Afina.UvClients

namespace Afina

open Scan Tagged

/-- What the last command of a log gives on a storage that was in this state before
the first. -/
def Store.answer (s : Store) (log : List HandlerEvent) : Option Bytes := do
  let (_, history) ← PartialRun.run Store.serve s (HandlerEvent.calls log)
  let (_, output) ← history.getLast?
  pure output

/-- The answers of a log. -/
def HandlerEvent.answers (log : List HandlerEvent) : List Bytes :=
  log.filterMap fun
    | .sent output => some output
    | _ => none

end Afina
