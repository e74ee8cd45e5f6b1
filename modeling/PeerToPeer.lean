import PeerToPeer.Crypto.AdditionLaw
import PeerToPeer.Crypto.Decoding
import PeerToPeer.Crypto.Ladder
import PeerToPeer.Crypto.Rfc8439
import PeerToPeer.Crypto.Streaming
import PeerToPeer.Crypto.Checked
import PeerToPeer.Crypto.Returned
import PeerToPeer.Crypto.Scalars
import PeerToPeer.Crypto.LowOrder
import PeerToPeer.Crypto.OneTime
import PeerToPeer.Crypto.Signatures
import PeerToPeer.Crypto.EddsaWords
import PeerToPeer.Session.Completeness
import PeerToPeer.Session.Channel
import PeerToPeer.Net.Descriptors
import PeerToPeer.Net.Segments
import PeerToPeer.Transfer.Duplicates
import PeerToPeer.Transfer.Formats
import PeerToPeer.Transfer.Reassembler
import PeerToPeer.Transfer.Pruning
import PeerToPeer.Node.Messages
import PeerToPeer.Node.Integrity
import PeerToPeer.Node.Authenticity
import PeerToPeer.Mesh.Delivery
import PeerToPeer.Node.Report
import PeerToPeer.Node.Transparency
import PeerToPeer.Node.Nonces
import PeerToPeer.Node.Discovery
import PeerToPeer.Control.Numbered
import PeerToPeer.Session.Agreement
import PeerToPeer.Session.Authentication
