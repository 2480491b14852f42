/-!
Text as it arrives through a line buffer.

A text is taken a piece at a time: up to a line end and with it, or as many bytes as the buffer
holds. Of each piece what stands before its first NUL arrives; the rest of the piece is lost, its
line end included. So a text without a NUL arrives as it was sent.
-/

namespace WatchWallet.LineBuffer

/-- How many bytes a piece may have. -/
def capacity : Nat := 127

/-- Where a piece stands: the bytes that it still takes, and whether it has had a NUL. -/
structure State where
  room : Nat
  cut : Bool
deriving DecidableEq, Repr

namespace State

def fresh : State := ⟨capacity, false⟩

/-- The state after a character. One that has no room as a whole goes on in the next piece. -/
def next (s : State) (c : Char) : State :=
  if c = '\n' then fresh
  else if c.utf8Size < s.room then ⟨s.room - c.utf8Size, s.cut || c = '\x00'⟩
  else ⟨s.room + capacity - c.utf8Size, false⟩

/-- What arrives of a character. Where only its last bytes do, they write no character, and
each is shown as a NUL, which nothing else that arrives can be. -/
def arriving (s : State) (c : Char) : List Char :=
  if s.cut then List.replicate (c.utf8Size - s.room) '\x00'
  else if c = '\x00' then []
  else [c]

theorem cut_next {s : State} {c : Char} (hs : s.cut = false) (hc : c ≠ '\x00') :
    (s.next c).cut = false := by
  unfold next
  split
  · rfl
  · split <;> simp [hs, hc]

end State

def arrivingFrom : State → List Char → List Char
  | _, [] => []
  | s, c :: cs => s.arriving c ++ arrivingFrom (s.next c) cs

/-- What arrives of a text. -/
def arriving (text : String) : String := .ofList (arrivingFrom .fresh text.toList)

@[simp] theorem arrivingFrom_nil (s : State) : arrivingFrom s [] = [] := rfl
@[simp] theorem arrivingFrom_cons (s : State) (c : Char) (cs : List Char) :
    arrivingFrom s (c :: cs) = s.arriving c ++ arrivingFrom (s.next c) cs := rfl

theorem arrivingFrom_of_no_nul {s : State} (hs : s.cut = false) {cs : List Char}
    (h : '\x00' ∉ cs) : arrivingFrom s cs = cs := by
  induction cs generalizing s with
  | nil => rfl
  | cons c cs ih =>
    have hc : c ≠ '\x00' := fun e => h (e ▸ List.mem_cons_self)
    have ht : '\x00' ∉ cs := fun m => h (List.mem_cons_of_mem _ m)
    simp [State.arriving, hs, hc, ih (State.cut_next hs hc) ht]

/-- A text without a NUL arrives as it was sent. -/
theorem arriving_of_no_nul {text : String} (h : '\x00' ∉ text.toList) :
    arriving text = text := by
  simp [arriving, arrivingFrom_of_no_nul (s := .fresh) rfl h]

end WatchWallet.LineBuffer
