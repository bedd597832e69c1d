import VllmOxide.Engine.Scheduler

/-!
# A causal network over a paged cache

The network behind the engine is any deterministic causal function. The content of a position is
computed from its token, from the position and from the contents of the positions before it, so that
it is determined by the token prefix that ends there; any function of the prefix arises in this way.
A token is sampled from the contents of all positions, the token history, the parameters and the
completion step.

The network decodes a prompt alone, without any cache: this is what the engine is compared with.

## Main definitions

* `Memory`, `Memory.read`: the physical cache, read through a block table.
* `CausalModel`, `CausalModel.ofPrefix`: the network.
* `CausalModel.contents`, `CausalModel.decode`: contents and completions without a cache.

## Main results

* `CausalModel.contentAt_congr`: a content is determined by the prefix.
* `CausalModel.contentAt_ofPrefix`: any function of the prefix is the content of a network.
-/

namespace VllmOxide

/-- The physical cache: what each slot holds. -/
abbrev Memory (V : Type) := ℤ → V

/-- The slot of a position in a block table, and `-1` past its end. -/
def tableSlot (blockTable : List ℕ) (p : ℕ) : ℤ :=
  match blockTable[p / BLOCK_SIZE]? with
  | none => -1
  | some blockId => (blockId * BLOCK_SIZE + p % BLOCK_SIZE : ℕ)

/-- The contents of the first `length` positions of a block table. -/
def Memory.read {V : Type} (memory : Memory V) (blockTable : List ℕ) (length : ℕ) : List V :=
  (List.range length).map fun p => memory (tableSlot blockTable p)

/-- A deterministic causal network. -/
structure CausalModel (V : Type) where
  /-- The content of a token at a position, given the contents of the positions before it. -/
  content : Token → ℕ → List V → V
  /-- The next token, given the contents of all positions, the token history, the parameters and the
  completion step. -/
  next : List V → List Token → SamplingParams → ℕ → Token

namespace CausalModel

variable {V : Type} (model : CausalModel V)

/-! ### Without a cache -/

/-- The contents of the first `length` positions of a token list. -/
def contentsTo (tokens : List Token) : ℕ → List V
  | 0 => []
  | length + 1 =>
    let before := contentsTo tokens length
    before ++ [model.content (tokens.getD length 0) length before]

/-- The contents of all positions of a token list. -/
def contents (tokens : List Token) : List V :=
  model.contentsTo tokens tokens.length

/-- The content of one position of a token list. -/
def contentAt (tokens : List Token) (p : ℕ) : V :=
  model.content (tokens.getD p 0) p (model.contentsTo tokens p)

/-- Whether a completion ends with its last token. -/
def stops (eosTokenIds : List Token) (params : SamplingParams) (completion : List Token)
    (token : Token) : Bool :=
  decide (params.maxTokens ≤ completion.length + 1) ||
    (decide (token ∈ eosTokenIds) && !params.ignoreEos)

/-- Plain autoregressive decoding of a prompt after the tokens of `completion`, with at most `fuel`
more. -/
def decodeFrom (eosTokenIds prompt : List Token) (params : SamplingParams) :
    (fuel : ℕ) → (completion : List Token) → List Token
  | 0, completion => completion
  | fuel + 1, completion =>
    let history := prompt ++ completion
    let token := model.next (model.contents history) history params completion.length
    if stops eosTokenIds params completion token then completion ++ [token]
    else decodeFrom eosTokenIds prompt params fuel (completion ++ [token])

/-- **Plain decoding** of a prompt alone: tokens up to `max_tokens`, or up to the first EOS token
unless EOS is ignored. -/
def decode (eosTokenIds prompt : List Token) (params : SamplingParams) : List Token :=
  model.decodeFrom eosTokenIds prompt params params.maxTokens []

/-! ### Contents -/

@[simp] theorem length_contentsTo (tokens : List Token) (length : ℕ) :
    (model.contentsTo tokens length).length = length := by
  induction length with
  | zero => rfl
  | succ length ih => rw [contentsTo, List.length_append, ih, List.length_singleton]

theorem contentsTo_succ (tokens : List Token) (length : ℕ) :
    model.contentsTo tokens (length + 1) =
      model.contentsTo tokens length ++ [model.contentAt tokens length] := rfl

theorem contentsTo_eq_map (tokens : List Token) (length : ℕ) :
    model.contentsTo tokens length = (List.range length).map (model.contentAt tokens) := by
  induction length with
  | zero => rfl
  | succ length ih => rw [contentsTo_succ, ih, List.range_succ, List.map_append, List.map_singleton]

/-- The contents of the first positions depend on the first tokens only. -/
theorem contentsTo_congr {tokens tokens' : List Token} {length : ℕ}
    (h : tokens.take length = tokens'.take length) :
    model.contentsTo tokens length = model.contentsTo tokens' length := by
  induction length with
  | zero => rfl
  | succ length ih =>
    have hbefore : tokens.take length = tokens'.take length := by
      have := congrArg (List.take length) h
      rwa [List.take_take, List.take_take, Nat.min_eq_left (Nat.le_succ length)] at this
    have hlast : tokens.getD length 0 = tokens'.getD length 0 := by
      have := congrArg (·.getD length 0) h
      simpa [List.getD_eq_getElem?_getD, List.getElem?_take] using this
    rw [contentsTo, contentsTo, ih hbefore, hlast]

/-- **Causality.** A content is determined by the token prefix that ends at its position. -/
theorem contentAt_congr {tokens tokens' : List Token} {p : ℕ}
    (h : tokens.take (p + 1) = tokens'.take (p + 1)) :
    model.contentAt tokens p = model.contentAt tokens' p := by
  have hcontents := model.contentsTo_congr h
  rw [contentsTo_succ, contentsTo_succ] at hcontents
  exact (List.append_inj' hcontents rfl).2 |> List.singleton_inj.mp

/-- Later tokens do not change the contents before them. -/
theorem contentAt_take {tokens : List Token} {p n : ℕ} (h : p < n) :
    model.contentAt (tokens.take n) p = model.contentAt tokens p :=
  model.contentAt_congr (by rw [List.take_take, Nat.min_eq_left h])

theorem contentAt_append {tokens : List Token} {p : ℕ} (h : p < tokens.length)
    (more : List Token) : model.contentAt (tokens ++ more) p = model.contentAt tokens p :=
  model.contentAt_congr (List.take_append_of_le_length h)

/-! ### Functions of the prefix -/

/-- The network whose contents are a given function of the token prefix. A content carries its
prefix, so that it can be extended by one token. -/
def ofPrefix {W : Type} (content : List Token → W)
    (next : List W → List Token → SamplingParams → ℕ → Token) : CausalModel (List Token × W) where
  content token _ before :=
    let tokens := (before.getLast?.map Prod.fst).getD [] ++ [token]
    (tokens, content tokens)
  next contents := next (contents.map Prod.snd)

/-- **Every function of the prefix is the content of a network.** -/
theorem contentAt_ofPrefix {W : Type} (content : List Token → W)
    (next : List W → List Token → SamplingParams → ℕ → Token) {tokens : List Token} {p : ℕ}
    (hp : p < tokens.length) : (ofPrefix content next).contentAt tokens p =
      (tokens.take (p + 1), content (tokens.take (p + 1))) := by
  induction p with
  | zero =>
    have hfirst : tokens.take 1 = [tokens.getD 0 0] := by
      rw [List.take_add_one, List.getD_eq_getElem?_getD, List.getElem?_eq_getElem hp]
      rfl
    rw [hfirst]
    rfl
  | succ p ih =>
    have hlast : tokens.take (p + 1 + 1) = tokens.take (p + 1) ++ [tokens.getD (p + 1) 0] := by
      rw [List.take_add_one, List.getD_eq_getElem?_getD, List.getElem?_eq_getElem hp]
      rfl
    have hbefore := ih (Nat.lt_of_succ_lt hp)
    rw [contentAt, contentsTo_succ, hbefore, hlast]
    simp [ofPrefix]

end CausalModel

end VllmOxide
