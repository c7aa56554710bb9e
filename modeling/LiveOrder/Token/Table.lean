import LiveOrder.World.Run

/-!
# Tables of tokens

The tokens of a list of keys, and how the keys fall into classes of equal ones.

* `TokenTable.ofTerms`   the table of the keys that terms denote, after a program that defines the
                         objects they mention;
* `Term.closedKey`, `Key.term`   a key and a term that mention no object, one from the other.
-/

namespace LiveOrder

structure TokenTable where
  tokens : List ShownToken
  /-- for each key the first place at which its token occurs -/
  classes : List Nat
  texts : List (Option String)
  canonical : List Term

namespace TokenTable

/-- The keys of a list of terms, all read first and then asked for their tokens, in order. -/
def readKeys (keys : List Term) : Act (List Key) := do
  let queries ← keys.mapM World.readQuery
  let nesting := (← get).limits.nesting
  queries.forM (World.ask (World.runSteps nesting))
  pure (queries.map Query.key)

def ofKeys (w : World) (keys : List Key) : TokenTable :=
  let tokens := keys.map Key.token
  { tokens := tokens.map w.showToken
    classes := tokens.map fun t => tokens.findIdx (· = t)
    texts := tokens.map Token.text?
    canonical := keys.map fun k => w.showKey k.canonical }

/-- The table for the keys that terms denote after a program has run. -/
def ofTerms (before : List Op) (keys : List Term) : Except Failure TokenTable :=
  let (_, w) := Program.runFrom false (.initial .standard false) before
  match readKeys keys w with
  | (.ok keys, w) => .ok (ofKeys w keys)
  | (.error e, _) => .error e

end TokenTable

/-- The key that a term denotes by itself. -/
def Term.closedKey (t : Term) : Except Failure Key :=
  match World.readQuery t (.initial .standard false) with
  | (.ok q, _) => .ok q.key
  | (.error e, _) => .error e

/-- A key as a term, without names. -/
def Key.term (k : Key) : Term := (World.initial .standard false).showKey k

end LiveOrder
