import AffineCalls.Expr.Render
import AffineCalls.Text.Decode

/-!
# Keys of calls

The key of a call is its text escaped into an identifier. Calls are told apart by
their keys, so two calls are the same exactly when their texts agree up to spaces.
-/

namespace AffineCalls

/-- The identifier that stands for a call. -/
def Call.key (c : Call) : String := Text.encode c.text

end AffineCalls
