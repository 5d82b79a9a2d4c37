/-!
Bodies of queries. A script says step by step what a body does: which other queries it reads, what it
does to the world it works on, and what it yields. A reading script does nothing but read, so that its
value is determined by the values it reads.
-/

namespace Palimpsest
namespace Query

inductive Script (K V W E : Type) where
  | yield (value : V)
  /-- Gives up for a reason of its own. -/
  | fail (reason : E)
  | read (key : K) (next : V → Script K V W E)
  /-- Looks at a value without reading it. -/
  | peek (key : K) (next : Option V → Script K V W E)
  /-- Asks whether a body is running. -/
  | running (next : Bool → Script K V W E)
  | set (key : K) (value : V) (next : Script K V W E)
  | advance (keep : Bool) (next : Script K V W E)
  | sweep (next : List K → Script K V W E)
  | look (next : W → Script K V W E)
  | change (world : W) (next : Script K V W E)

namespace Script

variable {K V W E : Type}

/-- Whether the script only reads, whatever it is answered. -/
def Reading : Script K V W E → Prop
  | yield _ => True
  | read _ next => ∀ v, (next v).Reading
  | _ => False

/-- Reads keys in order. -/
def readAll : List K → (List V → Script K V W E) → Script K V W E
  | [], next => next []
  | k :: ks, next => read k fun v => readAll ks fun vs => next (v :: vs)

end Script

/-- A family of queries. Inputs are set from outside; all other queries have a body, which is given the
query's previous value if there is one. -/
structure Rules (K V W E : Type) where
  isInput : K → Bool
  kind : K → String
  /-- Whether a value can stand for another unnoticed. -/
  same : V → V → Bool
  body : K → Option V → Script K V W E

end Query
end Palimpsest
