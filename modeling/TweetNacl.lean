import TweetNacl.Lib.Loops
import TweetNacl.Lib.Limbs
import TweetNacl.Lib.Indexing
import TweetNacl.Lib.MachineInt
import TweetNacl.Lib.Memory
import TweetNacl.Lib.CheckedWord
import TweetNacl.Lib.Montgomery
import TweetNacl.Lib.Edwards
import TweetNacl.Lib.EdwardsExtended
import TweetNacl.Gf
import TweetNacl.Fp
import TweetNacl.GfCarry
import TweetNacl.GfMul
import TweetNacl.GfPack
import TweetNacl.GfPow
import TweetNacl.ScalarMult
import TweetNacl.X25519
import TweetNacl.Poly1305
import TweetNacl.Poly1305Correct
import TweetNacl.Sha512
import TweetNacl.Fips180
import TweetNacl.Sha512Correct
import TweetNacl.Fips1804
import TweetNacl.Salsa20
import TweetNacl.Salsa20Correct
import TweetNacl.Stream
import TweetNacl.StreamLaw
import TweetNacl.Verify
import TweetNacl.SecretBox
import TweetNacl.Curve25519
import TweetNacl.Box
import TweetNacl.Ed25519
import TweetNacl.EdwardsCurve
import TweetNacl.Ed25519Correct
import TweetNacl.PointArrays
import TweetNacl.ModL
import TweetNacl.Lib.CheckedInt
import TweetNacl.ModLChecked
import TweetNacl.GfChecked
import TweetNacl.Sign
import TweetNacl.SignCorrect
import TweetNacl.OperandBounds
import TweetNacl.Malleability
import TweetNacl.EncodingUnique
import TweetNacl.SignOpenFailure
import TweetNacl.Fips1865
import TweetNacl.Lib.Machine
import TweetNacl.FipsSelftest
import TweetNacl.CoreSelftest
import TweetNacl.SignOpenBounds
import TweetNacl.ContextOpen
import TweetNacl.KeypairValidate
import TweetNacl.SalsaVector
import TweetNacl.Lib.Threads
import TweetNacl.Drng
import TweetNacl.DrngInit
import TweetNacl.DrngFill
import TweetNacl.RandomBytes
import TweetNacl.WeakSecrets
import TweetNacl.Lib.Buffers
import TweetNacl.Pqc
import TweetNacl.PqcCalls
import TweetNacl.PqcKeygen
import TweetNacl.SecureUtils
import TweetNacl.HealthTest
import TweetNacl.CanonicalPacking
import TweetNacl.ExponentChains
import TweetNacl.Comparison
import TweetNacl.Lib.AccessLog
import TweetNacl.SafeStrcpy
import TweetNacl.Lib.PolynomialHash
import TweetNacl.Poly1305Forgery
import TweetNacl.Lib.IteratedHash
import TweetNacl.Sha512Iteration
import TweetNacl.Lib.Selection
import TweetNacl.Dispatch
import TweetNacl.KeyExchange
import TweetNacl.X25519Selftests
import TweetNacl.Lib.MemoryRuns
import TweetNacl.FipsPowerOn
import TweetNacl.Startup
import TweetNacl.Lib.TokenInvariant
import TweetNacl.DrngUnused
import TweetNacl.OsRandomBytes
import TweetNacl.Lib.LinearResponse
import TweetNacl.KeyExtraction
import TweetNacl.PqcExchange
import TweetNacl.TestInterval
import TweetNacl.SalsaSymmetry
import TweetNacl.AcceptedSignatures
import TweetNacl.NonceReuse
