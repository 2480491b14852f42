import WatchWallet.Oracle.Node
import WatchWallet.Proofs.Action
import WatchWallet.Proofs.Address.Alphanumeric

/-!
What a node's oracle puts on a command line.

The lines that the shell is given are noted beside the shell's own state, which changes nothing
else. A scan and a broadcast give it one line each, or none for another network: a template that the
configuration fixes, with the text of an address or of a transaction in its place.
-/

namespace WatchWallet.Node

open WatchWallet.Action

variable {ω α β : Type}

/-! ### The lines that are handed over -/

/-- A shell that also notes every line that it is given. -/
def recording (shell : Shell ω) : Shell (ω × List String) := fun line s =>
  ((shell line s.1).1, (shell line s.1).2, s.2 ++ [line])

/-- What `x` does on a shell, `y` does on the one that notes its lines, and `lines` are noted. -/
def Hands (x : Action ω α) (y : Action (ω × List String) α) (lines : List String) : Prop :=
  ∀ o noted,
    run y (o, noted) = ⟨(run x o).result, ((run x o).state, noted ++ lines), (run x o).log⟩

lemma hands_nothing {x : Action ω α} {y : Action (ω × List String) α}
    (h : ∀ o noted,
      run y (o, noted) = ⟨(run x o).result, ((run x o).state, noted), (run x o).log⟩) :
    Hands x y [] := by
  intro o noted
  rw [h, List.append_nil]

lemma hands_pure (a : α) : Hands (pure a : Action ω α) (pure a) [] :=
  hands_nothing fun _ _ => rfl

lemma hands_fail (e : Error) : Hands (fail e : Action ω α) (fail e) [] :=
  hands_nothing fun _ _ => rfl

lemma hands_log (level : Log.Level) (message : String) :
    Hands (log level message : Action ω Unit) (log level message) [] :=
  hands_nothing fun _ _ => rfl

lemma hands_lift (e : Except Error α) : Hands (monadLift e : Action ω α) (monadLift e) [] :=
  hands_nothing fun _ _ => by simp

/-- What follows a step and hands nothing over adds no line, whether it is reached or not. -/
lemma hands_bind {x : Action ω α} {y : Action (ω × List String) α} {f : α → Action ω β}
    {g : α → Action (ω × List String) β} {lines : List String} (hx : Hands x y lines)
    (hf : ∀ a, Hands (f a) (g a) []) : Hands (x >>= f) (y >>= g) lines := by
  intro o noted
  rw [run_bind, run_bind, hx o noted]
  rcases run x o with ⟨e | a, t, es⟩
  · rfl
  · simp only
    rw [hf a t (noted ++ lines), List.append_nil]

/-- An entry of the log comes before any line. -/
lemma hands_log_bind {x : Action ω α} {y : Action (ω × List String) α} {lines : List String}
    (level : Log.Level) (message : String) (h : Hands x y lines) :
    Hands (log level message >>= fun _ => x) (log level message >>= fun _ => y) lines := by
  intro o noted
  simp only [run_bind, run_log, h o noted]

lemma hands_guard {c : Prop} [Decidable c] (e : Error) {x : Unit → Action ω α}
    {y : Unit → Action (ω × List String) α} (h : ∀ u, Hands (x u) (y u) []) :
    Hands (if c then fail e >>= x else x ()) (if c then fail e >>= y else y ()) [] := by
  split_ifs
  · exact hands_bind (hands_fail e) h
  · exact h ()

variable (cfg : Config) (shell : Shell ω)

/-- Every command hands one line over, whether it succeeds or not. -/
lemma hands_execute (command : String) :
    Hands (execute cfg shell command) (execute cfg (recording shell) command)
      [commandLine cfg command] := by
  have hask : Hands (modifyGet (shell (commandLine cfg command)) : Action ω (Option Reply))
      (modifyGet (recording shell (commandLine cfg command))) [commandLine cfg command] :=
    fun _ _ => rfl
  refine hands_log_bind _ _ (hands_bind hask fun reply => ?_)
  cases reply with
  | none => exact hands_fail _
  | some reply => exact hands_guard _ fun _ => hands_guard _ fun _ => hands_pure _

lemma hands_executeJson (command : String) :
    Hands (executeJson cfg shell command) (executeJson cfg (recording shell) command)
      [commandLine cfg command] := by
  refine hands_bind (hands_execute cfg shell command) fun output => ?_
  cases Json.parse output with
  | none => exact hands_fail _
  | some j => exact hands_pure j

/-- Nothing is handed over for another network. -/
lemma hands_checkNetwork {x : Unit → Action ω α} {y : Unit → Action (ω × List String) α}
    {lines : List String} (n : Network) (h : Hands (x ()) (y ()) lines) :
    Hands (checkNetwork cfg n >>= x) (checkNetwork cfg n >>= y)
      (if n = cfg.network then lines else []) := by
  by_cases hn : n = cfg.network
  · simpa [checkNetwork, hn] using h
  · rw [checkNetwork, checkNetwork, if_neg hn, if_neg hn, if_neg hn]
    exact hands_fail _

/-- A scan hands its one command over. -/
lemma hands_snapshot (n : Network) (a : Address) (depth : UInt32) :
    Hands (snapshot cfg shell n a depth) (snapshot cfg (recording shell) n a depth)
      (if n = cfg.network then [commandLine cfg (scanCommand a)] else []) := by
  refine hands_checkNetwork cfg n ?_
  refine hands_bind (hands_executeJson cfg shell (scanCommand a)) fun reply => ?_
  refine hands_bind (hands_lift _) fun s => ?_
  exact hands_log_bind _ _ (hands_pure _)

/-- A broadcast hands its one command over. -/
lemma hands_send (transaction : Bytes) (n : Network) :
    Hands (send cfg shell transaction n) (send cfg (recording shell) transaction n)
      (if n = cfg.network then [commandLine cfg (sendCommand transaction)] else []) := by
  refine hands_checkNetwork cfg n ?_
  exact hands_bind (hands_execute cfg shell (sendCommand transaction)) fun txid => hands_log _ _

/-! ### Templates -/

/-- A line with a place in it that is left to be filled. -/
structure Template where
  before : String
  after : String

def Template.fill (t : Template) (text : String) : String := t.before ++ text ++ t.after

/-- What stands before the command on every line. -/
def lead : String :=
  " ".intercalate ([cfg.binary, chainFlag cfg.network] ++ cfg.extraArgs) ++ " "

/-- What stands behind it. -/
def trail : String := " 2>&1"

lemma commandLine_eq (command : String) :
    commandLine cfg command = lead cfg ++ command ++ trail := by
  have htrail : " " ++ "2>&1" = trail := by decide
  rw [commandLine, String.intercalate_append_of_ne_nil (by simp) (by simp),
    String.intercalate_cons_cons, String.intercalate_singleton, lead]
  simp only [String.append_assoc, htrail]

def scanTemplate : Template := ⟨lead cfg ++ "scantxoutset start '[\"addr(", ")\"]'" ++ trail⟩

def sendTemplate : Template := ⟨lead cfg ++ "sendrawtransaction ", trail⟩

lemma commandLine_scanCommand (a : Address) :
    commandLine cfg (scanCommand a) = (scanTemplate cfg).fill a.text := by
  unfold scanCommand
  simp only [commandLine_eq, Template.fill, scanTemplate, String.append_assoc]

lemma commandLine_sendCommand (transaction : Bytes) :
    commandLine cfg (sendCommand transaction) =
      (sendTemplate cfg).fill (Hex.encode transaction) := by
  unfold sendCommand
  simp only [commandLine_eq, Template.fill, sendTemplate, String.append_assoc]

/-- **Letters and digits** are all that an address or a transaction puts on a command line. The text
of every address that the codec gives is written in them, whatever text the address was read from,
and so is the text of every transaction. With such a text in its place, a template that neither of
them touches is the one line that is handed over. -/
theorem commands_alphanumeric (d : Crypto.Digests) (n : Network) :
    (∀ a, Address.Obtained d a →
      a.text ≠ "" ∧ (∀ c ∈ a.text.toList, c.isAlphanum = true) ∧
        ∀ depth, Hands (snapshot cfg shell n a depth) (snapshot cfg (recording shell) n a depth)
          (if n = cfg.network then [(scanTemplate cfg).fill a.text] else [])) ∧
    ∀ transaction,
      (∀ c ∈ (Hex.encode transaction).toList, c ∈ Hex.digits) ∧
        Hands (send cfg shell transaction n) (send cfg (recording shell) transaction n)
          (if n = cfg.network then [(sendTemplate cfg).fill (Hex.encode transaction)] else []) := by
  refine ⟨fun a ha => ?_, fun transaction => ⟨fun c hc => Hex.mem_digits_of_mem_encode hc, ?_⟩⟩
  · have hspelled := ha.genuine.spelled
    refine ⟨hspelled.text_ne, hspelled.isAlphanum, fun depth => ?_⟩
    rw [← commandLine_scanCommand]
    exact hands_snapshot cfg shell n a depth
  · rw [← commandLine_sendCommand]
    exact hands_send cfg shell transaction n

/-- A text with a quote in it, and the line that is handed over for the address that it is read as,
to a shell whose commands all fail. -/
theorem commands_alphanumeric_of_quoted :
    Address.decode .standard "bc1';1qqqqqqqqqqqqqqqqqqqqqqqqqqqqqqqqqlsts97" =
        .ok (Address.ofPayload .standard .regtest .p2wpkh (Bytes.zeros 20)) ∧
      (run (snapshot { network := .regtest } (recording fun _ o => (some ⟨"", 1⟩, o)) .regtest
          (Address.ofPayload .standard .regtest .p2wpkh (Bytes.zeros 20)) 0) ((), [])).state.2 =
        ["bitcoin-cli -regtest scantxoutset start " ++
          "'[\"addr(bcrt1qqqqqqqqqqqqqqqqqqqqqqqqqqqqqqqqqdku202)\"]' 2>&1"] := by
  have htext : "bc1';1qqqqqqqqqqqqqqqqqqqqqqqqqqqqqqqqqlsts97" =
      Bech32.encode ⟨Address.hrp .mainnet ++ '1' :: "';".toList, 0, Bytes.zeros 20⟩ := by
    decide +kernel
  have hplain : ∀ c ∈ "';".toList, Bech32.Plain c := List.all_iff_forall_prop.mp (by decide)
  have hread := Address.decode_of_second_separator .standard .mainnet hplain (by decide)
    (rfl : (Bytes.zeros 20).length = 20)
  rw [← htext] at hread
  have h := (commands_alphanumeric { network := .regtest }
    (fun _ (o : Unit) => (some ⟨"", 1⟩, o)) .standard .regtest).1 _ (.decoded hread)
  refine ⟨hread, ?_⟩
  rw [h.2.2 0 () [], List.nil_append, if_pos rfl]
  decide +kernel

end WatchWallet.Node
